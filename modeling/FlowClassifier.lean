import FlowClassifier.Properties.Isolation
import FlowClassifier.Switch.Accumulators
import FlowClassifier.Properties.Slots
import FlowClassifier.Properties.Collision
import FlowClassifier.Properties.Mirror
import FlowClassifier.Framework.Windows
import FlowClassifier.Properties.WindowedFold
import FlowClassifier.Properties.IatDeviation
import FlowClassifier.Controller.Approx
import FlowClassifier.Framework.RunLength
import FlowClassifier.Controller.ApproxRules
import FlowClassifier.Properties.Division
import FlowClassifier.Framework.Cells
import FlowClassifier.Framework.ThresholdTree
import FlowClassifier.Controller.TreeRules
import FlowClassifier.Controller.InstallRules
import FlowClassifier.Properties.FeatureTables
import FlowClassifier.Properties.Compile
import FlowClassifier.Properties.Domain
import FlowClassifier.Properties.Compression
import FlowClassifier.Properties.Greedy
import FlowClassifier.Properties.Partition
import FlowClassifier.Properties.SizeDeviation
import FlowClassifier.Properties.Counts
import FlowClassifier.Properties.IatBound
import FlowClassifier.Properties.CollisionTest
import FlowClassifier.Switch.Parser
import FlowClassifier.Properties.PayloadSize
import FlowClassifier.Properties.Forwarding
import FlowClassifier.Switch.DebugLog
import FlowClassifier.Framework.Grep
import FlowClassifier.Visualize.FtsFromLog
import FlowClassifier.Properties.LogDecoder
import FlowClassifier.Framework.Bits
import FlowClassifier.Framework.OnesComplement
import FlowClassifier.Switch.Pipeline
import FlowClassifier.Properties.OnTheWire
import FlowClassifier.Properties.Conservation
import FlowClassifier.Properties.Hashing
import FlowClassifier.Properties.TimeShift
import FlowClassifier.Properties.View
import FlowClassifier.Controller.Startup
import FlowClassifier.Properties.Classifier
import FlowClassifier.Properties.ReportRate
import FlowClassifier.Properties.System
import FlowClassifier.Properties.Downstream
import FlowClassifier.Controller.TreeArrays
import FlowClassifier.Framework.Crc
import FlowClassifier.Properties.Spread
import FlowClassifier.Properties.Storage
import FlowClassifier.Properties.TableSize
import FlowClassifier.Properties.CutLog
import FlowClassifier.Properties.Recovery
import FlowClassifier.Properties.Precision
import FlowClassifier.Properties.RuleOrder
