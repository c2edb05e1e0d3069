import SmallTrial.ChatAccept
import SmallTrial.ChatReplyMatching
import SmallTrial.ChatServerModel
import SmallTrial.HashDigest
import SmallTrial.PoolPanic
import SmallTrial.QueueOwnership
import SmallTrial.QueueHistory
import SmallTrial.QueueDrop
import SmallTrial.ChatServerInvariant
import SmallTrial.ChatServerRouting
import SmallTrial.ChatServerVanished
import SmallTrial.HashEncoding
import SmallTrial.TransitionRetry
import SmallTrial.QueueProgress
import SmallTrial.HashSearch
import SmallTrial.FileTree
import SmallTrial.ListingModel
import SmallTrial.TreePreorder
import SmallTrial.ListingSections
import SmallTrial.ListingDirectory
import SmallTrial.RedisLinearizable
import SmallTrial.ChatRequestDecoding
import SmallTrial.ChatClientStream
import SmallTrial.ChatClientSession
import SmallTrial.InsertionSort
import SmallTrial.ListingOrder
import SmallTrial.ListingFile
import SmallTrial.ListingOutput
import SmallTrial.ListingBuffers
import SmallTrial.TextDecimal
import SmallTrial.ChatSendMessage
import SmallTrial.ChatClientList
import SmallTrial.BubbleSort
import SmallTrial.PtaSort
import SmallTrial.BitFlags
import SmallTrial.ListingArguments
import SmallTrial.TextSocket
import SmallTrial.WebConnection
import SmallTrial.PointerChain
import SmallTrial.QueueShape
import SmallTrial.QueueTakeOrder
import SmallTrial.TransitionHistory
import SmallTrial.TransitionMutex
import SmallTrial.QueueInterchange
import SmallTrial.TransitionLog
import SmallTrial.QueuePrograms
import SmallTrial.RedisClientModel
import SmallTrial.RedisClientAnswers
import SmallTrial.RedisSystemModel
import SmallTrial.RedisEndToEnd
import SmallTrial.RedisCompletes
import SmallTrial.ListingTermination
import SmallTrial.ListingMain
import SmallTrial.PoolParallel
import SmallTrial.WebMain
import SmallTrial.ChatRoom
import SmallTrial.ChatDelivery
import SmallTrial.TextHex
import SmallTrial.HashMain
import SmallTrial.HashSearchEnds
import SmallTrial.NumberRounding
import SmallTrial.ListingSizes
import SmallTrial.CrawlerTracks
