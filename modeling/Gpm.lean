import Gpm.Lib.Accounts
import Gpm.Lib.Format
import Gpm.Lib.Stateful
import Gpm.Lib.Sorted
import Gpm.Lib.Btree
import Gpm.Lib.Modes
import Gpm.Bdb.KeyvalueDb
import Gpm.BlockChain.Types
import Gpm.BlockChain.Validate
import Gpm.BlockChain.Verdict
import Gpm.BlockChain.Commitment
import Gpm.BlockChain.NonceSearch
import Gpm.BlockChain.Target
import Gpm.BlockChain.Address
import Gpm.Net.Framing
import Gpm.StateDb.Record
import Gpm.StateDb.Database
import Gpm.StateDb.Apply
import Gpm.StateDb.Ledger
import Gpm.StateDb.View
import Gpm.StateDb.Frame
import Gpm.StateDb.Refinement
import Gpm.StateDb.Reachable
import Gpm.StateDb.Wire
import Gpm.StateDb.Commit
import Gpm.StateDb.StateHash
import Gpm.StateDb.Block
import Gpm.StateDb.Log
import Gpm.StateDb.Filed
import Gpm.StateDb.Read
import Gpm.StateDb.Evolution
import Gpm.StateDb.Names
import Gpm.StateDb.Queries
import Gpm.StateDb.NameQuery
import Gpm.StateDb.LastBlock
import Gpm.StateDb.BlockSearch
import Gpm.StateDb.Supply
import Gpm.StateDb.Authorisation
import Gpm.StateDb.Keys
import Gpm.StateDb.Statement
import Gpm.StateDb.Addresses
import Gpm.StateDb.Signatures
import Gpm.StateDb.Issue
import Gpm.StateDb.Journal
import Gpm.StateDb.Contents
import Gpm.StateDb.ContentsIdx
import Gpm.StateDb.Transfers
import Gpm.StateDb.History
import Gpm.StateDb.TransactionLog
import Gpm.StateDb.TrxFile
import Gpm.StateDb.PagedFile
import Gpm.StateDb.FileRuns
import Gpm.Node.TrxDb
import Gpm.Node.Stage
import Gpm.Node.State
import Gpm.Node.Calls
import Gpm.Node.Timestamps
import Gpm.Node.Effects
import Gpm.Node.Chain
import Gpm.Node.Runs
import Gpm.Node.Sound
import Gpm.Node.Generation
import Gpm.Node.BlockStates
import Gpm.Node.TransactionLog
import Gpm.Node.Groups
import Gpm.Node.Accept
import Gpm.Node.Agreement
import Gpm.Node.Chronicle
import Gpm.Node.Inclusion
import Gpm.Node.Open
import Gpm.Node.Finality
import Gpm.Node.Rejection
import Gpm.Node.Replay
import Gpm.Node.PoolFrame
import Gpm.Node.Custody
import Gpm.Net.Gossip
import Gpm.Node.ValidChain
import Gpm.Node.Restart
import Gpm.Node.Levels
import Gpm.Node.FullBlocks
import Gpm.Node.Origin
import Gpm.Node.Following
import Gpm.Node.HeadHash
import Gpm.Node.Selection
import Gpm.Node.Mining
import Gpm.Node.Propagation
import Gpm.Node.Books
import Gpm.Node.StateFile
import Gpm.Net.Sync
import Gpm.Bitblocks.Fetched
import Gpm.Bitblocks.Requests
import Gpm.Bitblocks.Stores
import Gpm.Bitblocks.Upload
import Gpm.Bitblocks.Serves
import Gpm.Crypto.Modes
import Gpm.FreeMarket.Sign
import Gpm.FreeMarket.Client
import Gpm.FreeMarket.Payment
import Gpm.FreeMarket.Registration
import Gpm.FreeMarket.Issuing
