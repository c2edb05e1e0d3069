import Mathlib.Data.List.Nodup
import Mathlib.Logic.Relation

/-! Pre-order of a tree that is given by the children of each node, with a bound on its depth. -/

namespace Tree

open Relation

variable {α : Type*}

/-- A node, then its children's subtrees in order, down to a depth. -/
def preorder (children : α → List α) : Nat → α → List α
  | 0, _ => []
  | k + 1, a => a :: (children a).flatMap (preorder children k)

/-- The nodes at and below a node. -/
def Below (children : α → List α) : α → α → Prop := ReflTransGen fun a b => b ∈ children a

variable {children : α → List α}

theorem Below.refl (a : α) : Below children a a := ReflTransGen.refl

theorem Below.child {a b c : α} (h : Below children a b) (hc : c ∈ children b) : Below children a c :=
  ReflTransGen.tail h hc

theorem Below.head {a b c : α} (hb : b ∈ children a) (h : Below children b c) : Below children a c :=
  ReflTransGen.head hb h

theorem below_of_mem {k : Nat} {a b : α} (h : b ∈ preorder children k a) : Below children a b := by
  induction k generalizing a with
  | zero => cases h
  | succ k ih =>
      rcases List.mem_cons.mp h with rfl | h
      · exact .refl b
      · obtain ⟨c, hc, hb⟩ := List.mem_flatMap.mp h
        exact .head hc (ih hb)

section Rank

variable {rank : α → Nat} (hrank : ∀ a, ∀ b ∈ children a, rank a < rank b)

include hrank

theorem Below.rank_le {a b : α} (h : Below children a b) : rank a ≤ rank b := by
  induction h with
  | refl => exact Nat.le_refl _
  | tail _ hc ih => exact Nat.le_trans ih (Nat.le_of_lt (hrank _ _ hc))

/-- With enough depth every node below is listed. -/
theorem mem_preorder {height k : Nat} {a b : α} (hb : rank b ≤ height) (hk : height < rank a + k)
    (h : Below children a b) : b ∈ preorder children k a := by
  induction k generalizing a with
  | zero =>
      have hle := h.rank_le hrank
      omega
  | succ k ih =>
      rcases ReflTransGen.cases_head h with rfl | ⟨c, hc, hcb⟩
      · exact List.mem_cons_self
      · have hlt := hrank a c hc
        exact List.mem_cons_of_mem _ (List.mem_flatMap.mpr ⟨c, hc, ih (by omega) hcb⟩)

/-- In a tree, two children of one node have nothing below them in common. -/
theorem eq_of_below (hparent : ∀ a a' b, b ∈ children a → b ∈ children a' → a = a') {a b b' x : α}
    (hb : b ∈ children a) (hb' : b' ∈ children a) (h : Below children b x) (h' : Below children b' x) :
    b = b' := by
  have hup : ∀ c c', c ∈ children a → c' ∈ children a → Below children c c' → c = c' := by
    intro c c' hc hc' hbelow
    rcases ReflTransGen.cases_tail hbelow with rfl | ⟨d, hcd, hd⟩
    · rfl
    · -- the parent of `c'` would be at or below its own child `c`
      rw [← hparent a d c' hc' hd] at hcd
      have hle := Below.rank_le hrank hcd
      have hlt := hrank a c hc
      omega
  have huniq : Relator.RightUnique (Function.swap fun a b => b ∈ children a) :=
    fun c d d' hd hd' => hparent d d' c hd hd'
  have hswap : ∀ {c d}, ReflTransGen (Function.swap fun a b => b ∈ children a) c d → Below children d c :=
    fun h => reflTransGen_swap.mp h
  rcases ReflTransGen.total_of_right_unique huniq (reflTransGen_swap.mpr h)
    (reflTransGen_swap.mpr h') with hle | hle
  · exact (hup b' b hb' hb (hswap hle)).symm
  · exact hup b b' hb hb' (hswap hle)

/-- In a tree no node is listed twice. -/
theorem nodup_preorder (hparent : ∀ a a' b, b ∈ children a → b ∈ children a' → a = a')
    (hnodup : ∀ a, (children a).Nodup) (k : Nat) (a : α) : (preorder children k a).Nodup := by
  induction k generalizing a with
  | zero => exact List.nodup_nil
  | succ k ih =>
      refine List.nodup_cons.mpr ⟨fun ha => ?_, List.nodup_flatMap.mpr ⟨fun b _ => ih b, ?_⟩⟩
      · obtain ⟨b, hb, hab⟩ := List.mem_flatMap.mp ha
        have hle := (below_of_mem hab).rank_le hrank
        have hlt := hrank a b hb
        omega
      · refine (hnodup a).imp_of_mem fun {b c} hb hc hne x hxb hxc => hne ?_
        exact eq_of_below hrank hparent hb hc (below_of_mem hxb) (below_of_mem hxc)

end Rank

end Tree
