import KernelBasecamp.Rle.RoundTrip
import KernelBasecamp.Reminders.Delivery
import KernelBasecamp.Lib.CMem
import KernelBasecamp.Procfs.Rw
import KernelBasecamp.Procfs.Cursor
import KernelBasecamp.Pool.Steps
import KernelBasecamp.Lib.WorkLedger
import KernelBasecamp.Pool.Conservation
import KernelBasecamp.Pool.Emptiness
import KernelBasecamp.Chat.Dyndev
import KernelBasecamp.Lib.Lines
import KernelBasecamp.Chat.Log
import KernelBasecamp.Chat.Capacity
import KernelBasecamp.Chat.Board
import KernelBasecamp.Chat.Views
import KernelBasecamp.Chat.Forgery
import KernelBasecamp.Chat.Readers
import KernelBasecamp.Lib.Parties
import KernelBasecamp.Pool.Reservation
import KernelBasecamp.Pool.Shutdown
import KernelBasecamp.Chat.Atomicity
import KernelBasecamp.Chat.Users
import KernelBasecamp.Chat.Lifecycle
import KernelBasecamp.Dice.Game
import KernelBasecamp.Dice.Leaderboard
import KernelBasecamp.Lib.CInt
import KernelBasecamp.Lib.Stretches
import KernelBasecamp.Lib.Sscanf
import KernelBasecamp.Reminders.Store
import KernelBasecamp.Reminders.Order
import KernelBasecamp.Currency.Exchange
import KernelBasecamp.Currency.Files
import KernelBasecamp.Currency.Clients
import KernelBasecamp.Messanger.Records
import KernelBasecamp.Lib.Words
import KernelBasecamp.Procfs.Reverse
import KernelBasecamp.Procfs.Leak
import KernelBasecamp.Rle.Streams
import KernelBasecamp.Messanger.Unload
import KernelBasecamp.Procfs.Sentences
import KernelBasecamp.Procfs.Bounds
import KernelBasecamp.Lcd.FrameBuffer
import KernelBasecamp.Lcd.Rectangle
import KernelBasecamp.Lcd.Text
import KernelBasecamp.Reminders.Show
import KernelBasecamp.Currency.Arithmetic
import KernelBasecamp.Lib.DecimalPoint
import KernelBasecamp.Currency.Display
import KernelBasecamp.Currency.Written
import KernelBasecamp.Reminders.Lines
import KernelBasecamp.Reminders.Recorded
import KernelBasecamp.Reminders.Early
import KernelBasecamp.Chat.Scan
import KernelBasecamp.Chat.Chunks
import KernelBasecamp.Lcd.Transfer
import KernelBasecamp.Currency.RoundTrip
import KernelBasecamp.Lib.Counter
import KernelBasecamp.Procfs.Interval
import KernelBasecamp.Timing.Tracker
import KernelBasecamp.Messanger.Func
import KernelBasecamp.Lib.LinkedList
import KernelBasecamp.Messanger.Exit
import KernelBasecamp.Reminders.Exit
import KernelBasecamp.Lib.Ere
import KernelBasecamp.Scripts.RemoveFiles
import KernelBasecamp.Pool.Rows
import KernelBasecamp.Gpio.Calls
import KernelBasecamp.Gpio.Events
import KernelBasecamp.Lcd.Demo
import KernelBasecamp.Lcd.Display
import KernelBasecamp.Lcd.Picture
import KernelBasecamp.Chrdev.Device
import KernelBasecamp.Chrdev.Exclusive
import KernelBasecamp.Chrdev.Reads
import KernelBasecamp.Lib.ListCursor
import KernelBasecamp.Lib.Renaming
import KernelBasecamp.Pool.Progress
import KernelBasecamp.Reminders.Heap
import KernelBasecamp.Reminders.Interrupt
import KernelBasecamp.Reminders.Timer
import KernelBasecamp.Rle.Programs
import KernelBasecamp.Scripts.Words
import KernelBasecamp.Scripts.RenameFiles
import KernelBasecamp.Currency.Loading
import KernelBasecamp.Dice.Main
import KernelBasecamp.Procfs.Mailbox
import KernelBasecamp.Procfs.Sharing
import KernelBasecamp.Rle.Cuts
import KernelBasecamp.Scripts.CountEdges
import KernelBasecamp.Lib.PathTree
import KernelBasecamp.Scripts.RemoveTree
import KernelBasecamp.Chrdev.Loading
import KernelBasecamp.Gpio.Setup

