import Peios.Interaction.Handler
import Peios.Interaction.Interleave
import Peios.Bytes.LittleEndian
import Peios.Error
import Peios.Registry.Watch
import Peios.Bytes.Pieces
import Peios.Bytes.Utf8
import Peios.Registry.Data
import Peios.Registry.Equiv.Watch
import Peios.Registry.Call
import Peios.Registry.Equiv.Data
import Peios.Registry.Key
import Peios.Registry.Equiv.SizedRead
import Peios.Registry.DeleteTree
import Peios.Interaction.Path
import Peios.Forest
import Peios.Registry.Hive
import Peios.Registry.Equiv.DeleteTree
import Peios.Registry.Layers
import Peios.Interaction.Monitor
import Peios.Registry.Equiv.Layers
import Peios.Equiv.Util
import Peios.File.Equiv.MountPolicy
import Peios.Event.Format
import Peios.Event.Ring
import Peios.Event.Equiv.Ring
import Peios.Bytes.Parses
import Peios.Registry.Equiv.Values
import Peios.Access
import Peios.Equiv.Lengths
import Peios.Interaction.Latch
import Peios.Security.Acl
import Peios.Security.Equiv.Acl
import Peios.Token.Builder
import Peios.Token.Equiv.Builder
import Peios.Token.Equiv.Token
import Peios.Directory
import Peios.Registry.Store
import Peios.Registry.Equiv.LayerCreate
import Peios.Registry.Equiv.LayerRead
import Peios.Registry.Equiv.LayerStore
import Peios.Registry.Equiv.Growth
import Peios.Registry.Equiv.LayerList
import Peios.Registry.Equiv.LayerValues
import Peios.Security.Equiv.Views
import Peios.Indexing
import Peios.Token.Equiv.FirstError
import Peios.Bytes.Padding
import Peios.Token.Equiv.Source
import Peios.Event.Emit
import Peios.Event.Equiv.Drain
import Peios.Event.Equiv.Emit
import Peios.Msgpack.Equiv.Reader
import Peios.Msgpack.Reader
import Peios.NamedBits
import Peios.Security.Mask
import Peios.Security.Equiv.Mask
import Peios.Python.Dict
import Peios.Python.Json
import Peios.Python.Sequence
import Peios.Python.Str
import Peios.FileTree
import Peios.Interaction.Triple
import Peios.KernelInputs.Paths
import Peios.KernelInputs.Snapshot
import Peios.KernelInputs.Update
import Peios.Python.PurePath
import Peios.KernelInputs.Disk
import Peios.KernelInputs.Equiv.Export
import Peios.KernelInputs.Equiv.Check
import Peios.KernelInputs.Equiv.Origin
import Peios.KernelInputs.Equiv.Snapshot
import Peios.KernelInputs.Equiv.Update
import Peios.KernelInputs.Equiv.Reliable
import Peios.Interaction.Concurrent
import Peios.Registry.WatchRead
import Peios.Registry.Equiv.WatchRead
import Peios.Socket
import Peios.Equiv.Socket
import Peios.Token.Session
import Peios.Token.Equiv.Session
import Peios.StyleTools.Install
import Peios.StyleTools.Bin
import Peios.StyleTools.Equiv.Install
import Peios.StyleTools.Equiv.Recover
import Peios.KernelInputs.Equiv.Bazel
import Peios.Event.Policy
import Peios.Event.Equiv.Policy
import Peios.Registry.Keyspace
import Peios.Registry.Equiv.DeleteTreeShared
import Peios.Registry.Equiv.DeleteTreeTxn
import Peios.Interaction.Shared
import Peios.Registry.Equiv.LayerShared
import Peios.Python.Walk
import Peios.StyleCheck.Check
import Peios.StyleCheck.Formatters
import Peios.StyleCheck.Tidy
import Peios.StyleCheck.Equiv.Sources
import Peios.StyleCheck.Equiv.Check
