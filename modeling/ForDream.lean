import ForDream.App
import ForDream.Calendar
import ForDream.Cloud.Coherent
import ForDream.Cloud.Concurrent
import ForDream.Cloud.Step
import ForDream.Database.Balance
import ForDream.Database.Builder
import ForDream.Database.Change
import ForDream.Database.Client
import ForDream.Database.CompoundWrite
import ForDream.Database.Dictionary
import ForDream.Database.Enumerator
import ForDream.Database.Event
import ForDream.Database.Key
import ForDream.Database.Listener
import ForDream.Database.Merge
import ForDream.Database.Node
import ForDream.Database.Overlay
import ForDream.Database.Path
import ForDream.Database.Processor
import ForDream.Database.Raise
import ForDream.Database.Removal
import ForDream.Database.Sync
import ForDream.Database.SyncTree
import ForDream.Database.Tree
import ForDream.Database.View
import ForDream.Database.WriteTree
import ForDream.Device.Journal
import ForDream.Device.Loss
import ForDream.Device.Sequential
import ForDream.Device.Step
import ForDream.Firebase
import ForDream.Lib.Ascending
import ForDream.Lib.Decimal
import ForDream.Lib.IndexMap
import ForDream.Lib.Machine
import ForDream.Lib.Overwrite
import ForDream.Lib.Sorter
import ForDream.Main
import ForDream.Main.Follow
import ForDream.Main.Swipe
import ForDream.Model
import ForDream.Pager
import ForDream.Pager.Detail
import ForDream.Pager.StarStorage
import ForDream.Screens
import ForDream.Search.Result
import ForDream.Search.Run
import ForDream.Search.Screen
import ForDream.Session
import ForDream.Withdrawal
