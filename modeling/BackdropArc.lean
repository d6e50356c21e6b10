import BackdropArc.CloneIterDuplication
import BackdropArc.CopyOnWriteUnwind
import BackdropArc.OffsetCopyOnWrite
import BackdropArc.RacingUnwraps
import BackdropArc.UniqueAccess
import BackdropArc.UnionRefinement
import BackdropArc.PointerPrograms
import BackdropArc.HandleComparison
import BackdropArc.SliceConstructors
import BackdropArc.RelaxedSafety
import BackdropArc.Initialization
import BackdropArc.DestructorCascades
import BackdropArc.UnsharedRefinement
