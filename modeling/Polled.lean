import Polled.Main
import Polled.Proofs.Awaiting
import Polled.Proofs.Bookkeeping
import Polled.Proofs.Coordinates
import Polled.Proofs.Delivery
import Polled.Proofs.Effects
import Polled.Proofs.Extents
import Polled.Proofs.Freeing
import Polled.Proofs.KindTexts
import Polled.Proofs.Linking
import Polled.Proofs.Literals
import Polled.Proofs.Looping
import Polled.Proofs.Partition
import Polled.Proofs.Relayout
import Polled.Proofs.Repolling
import Polled.Proofs.Returning
import Polled.Proofs.Returns
import Polled.Proofs.SingleNames
import Polled.Proofs.UnderWay
