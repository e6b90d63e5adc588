import DhtCore.NodeId
import DhtCore.Endpoint
import DhtCore.Bep42
import DhtCore.Bep42.Crc32c
import DhtCore.Bep42.Compliance
import DhtCore.Bep44
import DhtCore.Support.Pruning
import DhtCore.Storage.Tokens
import DhtCore.Storage.Voter
import DhtCore.Storage.Sampling
import DhtCore.Lib.Decimal
import DhtCore.Bencode.RoundTrip
import DhtCore.Bep44.Signing
import DhtCore.Krpc.Encoding
import DhtCore.Krpc.Nodes
import DhtCore.RoutingTable.Rebuild
import DhtCore.RoutingTable.Targets
import DhtCore.NodeCatalog.Refinement
import DhtCore.NodeList.Paging
import DhtCore.NodeList.AddressFilter
import DhtCore.Sybil.Links
import DhtCore.NetworkStats.Conservation
import DhtCore.Census.Runs
import DhtCore.History.Averages
import DhtCore.KeyedListModel.Replay
import DhtCore.DhtController.NodePages
import DhtCore.DhtController.Exports
import DhtCore.NodeListModel
import DhtCore.Crawler.Verdicts
import DhtCore.PortMapper.Renewal
import DhtCore.PortMapper.Leases
import DhtCore.RpcManager.Queues
import DhtCore.RpcManager.Contacts
import DhtCore.RpcManager.Timeouts
import DhtCore.RpcManager.Turns
import DhtCore.RpcManager.Order
import DhtCore.RpcManager.TransactionIds
import DhtCore.DhtNode.Get
import DhtCore.Lookup.Completeness
import DhtCore.Lookup.Progress
import DhtCore.Lookup.Trimming
import DhtCore.Lookup.Item
import DhtCore.DhtEngine.Publish
import DhtCore.DhtEngine.Search
import DhtCore.Inbound
import DhtCore.NodeList.Csv
