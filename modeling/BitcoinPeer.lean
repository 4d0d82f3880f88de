import BitcoinPeer.Main
import BitcoinPeer.Message.Callback
import BitcoinPeer.Net.Loopback
import BitcoinPeer.Proofs.Merkle.Branches
import BitcoinPeer.Proofs.Merkle.RoundTrip
import BitcoinPeer.Proofs.Net.Link
import BitcoinPeer.Proofs.Net.Ping
import BitcoinPeer.Proofs.Merkle.Binding
import BitcoinPeer.Proofs.Merkle.BranchBinding
import BitcoinPeer.Proofs.Merkle.Commitment
import BitcoinPeer.Proofs.Peer.Association
import BitcoinPeer.Proofs.Chain.Verification
import BitcoinPeer.Proofs.Merkle.Sizes
import BitcoinPeer.Proofs.Merkle.Spending
import BitcoinPeer.Proofs.Chain.Filtering
import BitcoinPeer.Proofs.Codec.Streaming
import BitcoinPeer.Proofs.Message.Streaming
import BitcoinPeer.Proofs.Chain.Respelling
import BitcoinPeer.Proofs.Chain.BlockRemembering
import BitcoinPeer.Proofs.Net.Lifecycle
import BitcoinPeer.Proofs.Storage.Walking
import BitcoinPeer.Proofs.Net.Closing
import BitcoinPeer.Proofs.Net.LegacyPing
import BitcoinPeer.Proofs.Net.Checksum
import BitcoinPeer.Proofs.Net.Inputs
import BitcoinPeer.Proofs.Net.Reception
import BitcoinPeer.Proofs.Net.Polling
import BitcoinPeer.Proofs.Message.StreamOpening
import BitcoinPeer.Proofs.Message.VersionTail
import BitcoinPeer.Proofs.Net.FrameStream
import BitcoinPeer.Proofs.Net.Outgoing
import BitcoinPeer.Proofs.Chain.Positions
import BitcoinPeer.Proofs.Chain.Compacting
import BitcoinPeer.Proofs.Chain.Work
import BitcoinPeer.Proofs.Codec.Varint
import BitcoinPeer.Proofs.Message.Descriptors
import BitcoinPeer.Proofs.Codec.Tally
import BitcoinPeer.Proofs.Message.Elements
import BitcoinPeer.Proofs.Chain.Extraction
import BitcoinPeer.Proofs.Merkle.Matched
import BitcoinPeer.Proofs.Message.Inventories
import BitcoinPeer.Proofs.Merkle.Inclusion
import BitcoinPeer.Proofs.Merkle.Refilling
import BitcoinPeer.Proofs.Digest.SipHash
