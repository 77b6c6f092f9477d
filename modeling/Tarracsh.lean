import Tarracsh.DigestExactness
import Tarracsh.DigestSensitivity
import Tarracsh.DigestNonInterference
import Tarracsh.PoolRenumbering
import Tarracsh.StringPoolRefinement
import Tarracsh.TablePersistence
import Tarracsh.SkippedRows
import Tarracsh.TableFailure
import Tarracsh.DatabaseSave
import Tarracsh.KeyedUpdates
import Tarracsh.ClassFileExtraction
import Tarracsh.ReaderAgreement
import Tarracsh.SafeConsumption
import Tarracsh.ParserRoundTrip
import Tarracsh.LinkRepetition
import Tarracsh.StaleNodes
import Tarracsh.DigestOrder
import Tarracsh.DigestStability
import Tarracsh.DigestHistory
import Tarracsh.DigestService
import Tarracsh.SkippedJars
import Tarracsh.JarBuffers
import Tarracsh.QuerySemantics
import Tarracsh.QueryAcceptance
import Tarracsh.DiffVerdicts
import Tarracsh.AnnotationRoundTrip
import Tarracsh.DescriptorTermination
import Tarracsh.ConstantRendering
import Tarracsh.WalkersInStep
import Tarracsh.WalkerBounds
import Tarracsh.ExportedClassEdges
import Tarracsh.SignatureAcceptance
import Tarracsh.ExportedLabels
import Tarracsh.QueryLiterals
import Tarracsh.ParallelListing
import Tarracsh.StrongClassnames
import Tarracsh.PoolWalks
import Tarracsh.DigestSessions
import Tarracsh.InputOrder
import Tarracsh.ProgramOrder
import Tarracsh.ProgramExport
import Tarracsh.DigestThreads
import Tarracsh.ConcurrentSaves
import Tarracsh.ServerShutdown
import Tarracsh.GmlRoundTrip
