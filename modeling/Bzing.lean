import Bzing.Data.Handler
import Bzing.Spent.Refinement
import Bzing.Spent.Reserve
import Bzing.Spent.Refused
import Bzing.Block.Progress
import Bzing.Block.HashArray
import Bzing.Merkle.Duplicates
import Bzing.Merkle.Layout
import Bzing.Chain.Regen
import Bzing.Chain.Words
import Bzing.Chain.Frame
import Bzing.Chain.Rejected
import Bzing.Chain.QuickIndex
import Bzing.Index.Lookup
import Bzing.Chain.Reset
import Bzing.Chain.Reopen
import Bzing.Index.Cursors
import Bzing.Chain.Readd
import Bzing.Chain.Aligned
import Bzing.Hash.ChashRuns
