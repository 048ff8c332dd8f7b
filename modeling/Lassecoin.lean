import Lassecoin.Types
import Lassecoin.Balances
import Lassecoin.Lottery
import Lassecoin.Chain.State
import Lassecoin.Chain.Rollback
import Lassecoin.Chain.AddBlock
import Lassecoin.Chain.Step
import Lassecoin.Chain.Shape
import Lassecoin.Chain.ForkChoice
import Lassecoin.Chain.Walk
import Lassecoin.Chain.Arrival
import Lassecoin.Chain.Resubmit
import Lassecoin.Chain.Audit
import Lassecoin.Chain.Produce
import Lassecoin.Chain.Termination
import Lassecoin.Chain.Switch
import Lassecoin.Chain.Extension
import Lassecoin.Chain.Progress
import Lassecoin.Chain.Delivery
