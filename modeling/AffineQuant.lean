import AffineQuant.Proofs.AffineCode.Accuracy
import AffineQuant.Proofs.AffineCode.Decode
import AffineQuant.Proofs.AffineCode.Ends
import AffineQuant.Proofs.AffineCode.Saturation
import AffineQuant.Proofs.AffineCode.Scale
import AffineQuant.Proofs.AffineCode.Zero
import AffineQuant.Proofs.Calibration.Interleaving
import AffineQuant.Proofs.Calibration.Routes
import AffineQuant.Proofs.MulShift.Constant
import AffineQuant.Proofs.MulShift.Inverse
import AffineQuant.Proofs.MulShift.Wide
import AffineQuant.Proofs.Settings.Overlay
import AffineQuant.Proofs.Settings.RoundTrip
import AffineQuant.Proofs.Store.Canonical
import AffineQuant.Settings.Document
import AffineQuant.Store.Table
