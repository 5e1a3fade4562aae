import ZRouter.Lib.Exec
import ZRouter.Lib.CString
import ZRouter.Lib.Pattern
import ZRouter.Lib.Lua
import ZRouter.Lib.Memory
import ZRouter.Lib.Path
import ZRouter.Lib.Retry
import ZRouter.Lib.Prefix
import ZRouter.Lib.Forest
import ZRouter.Lib.Double
import ZRouter.Lib.Threads
import ZRouter.Lib.Runs
import ZRouter.Upgrade.Reader
import ZRouter.Upgrade.Ring
import ZRouter.Upgrade.HttpInput
import ZRouter.Upgrade.Reads
import ZRouter.Upgrade.Request
import ZRouter.Upgrade.Part
import ZRouter.Upgrade.Search
import ZRouter.Upgrade.Outcome
import ZRouter.Upgrade.AnyRead
import ZRouter.Upgrade.Extraction
import ZRouter.Upgrade.Termination
import ZRouter.Upgrade.Chunking
import ZRouter.Upgrade.Ready
import ZRouter.Upgrade.Main
import ZRouter.Upgrade.Payload
import ZRouter.Upgrade.HeaderLines
import ZRouter.Upgrade.Filename
import ZRouter.Upgrade.ReadErr
import ZRouter.Upgrade.Parts
import ZRouter.Upgrade.Multipart
import ZRouter.Upgrade.Blocks
import ZRouter.Upgrade.WriteBuffer
import ZRouter.Upgrade.Streaming
import ZRouter.Upgrade.Verify
import ZRouter.Tools.Packimage
import ZRouter.Tools.DsrImage
import ZRouter.Tools.Packed
import ZRouter.Lib.Crc
import ZRouter.Tools.Trx
import ZRouter.Web.UrlCode
import ZRouter.Web.Query
import ZRouter.Web.KvFile
import ZRouter.Web.Collector
import ZRouter.Web.Event
import ZRouter.Web.SameTable
import ZRouter.Web.DocRoot
import ZRouter.Web.Conf
import ZRouter.Web.ConfPath
import ZRouter.Web.Address
import ZRouter.Web.SetMany
import ZRouter.Web.Form
import ZRouter.Web.Coherent
import ZRouter.Web.XmlParse
import ZRouter.Web.Setters
import ZRouter.Web.XmlDump
import ZRouter.Web.XmlTag
import ZRouter.Web.Saving
import ZRouter.Web.Delivery
import ZRouter.Lib.Pending
import ZRouter.Web.Replica
import ZRouter.Lib.Captures
import ZRouter.Web.Devd
import ZRouter.Lib.Walk
import ZRouter.Web.Tasks
import ZRouter.Lib.Template
import ZRouter.Web.Template
import ZRouter.Web.ConfTable
import ZRouter.Web.Submit
import ZRouter.Web.Base64
import ZRouter.Web.Base64Encode
import ZRouter.Web.IpCalc
import ZRouter.Web.Connection
import ZRouter.Web.Auth
import ZRouter.Web.BaseMac
import ZRouter.Conf.Xml
import ZRouter.Conf.Layers
import ZRouter.Conf.Shape
import ZRouter.Conf.Dump
import ZRouter.Conf.Export
import ZRouter.Conf.Events
import ZRouter.Conf.Parsers
import ZRouter.Conf.Blocks
import ZRouter.Conf.Links
import ZRouter.Conf.Owned
import ZRouter.Lib.Relocation
import ZRouter.Conf.Represents
import ZRouter.Conf.Simulation
import ZRouter.Route.Uplinks
import ZRouter.Route.Failover
import ZRouter.Json.Deleting
import ZRouter.Json.Bounds
import ZRouter.Cdevd.Config
import ZRouter.Cdevd.Processes
import ZRouter.Shttpd.Ssi
import ZRouter.Shttpd.Directives
import ZRouter.Shttpd.Ready
