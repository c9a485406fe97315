import Pct.Refinement.Validation
import Pct.Refinement.Comparing
import Pct.Refinement.Hashing
import Pct.Refinement.Soundness
import Pct.Refinement.NormalOutput
import Pct.Refinement.EncodeImage
import Pct.Refinement.Components
import Pct.Refinement.Contract
import Pct.Refinement.Blocks
import Pct.Refinement.Recoding
import Pct.Refinement.Rfc3986Order
import Pct.Refinement.StreamHashing
import Pct.Refinement.Joining
import Pct.Refinement.Sizes
import Pct.Refinement.ErrorStream
import Pct.Refinement.Unchecked
import Pct.Refinement.UncheckedComparing
import Pct.Refinement.Incremental
import Pct.Client.Refinement
import Pct.Client.Safety
