import ProbableCause.Lib.Text
import ProbableCause.Lib.Exits
import ProbableCause.Lib.Overlay
import ProbableCause.Lib.Java
import ProbableCause.Lib.Bits
import ProbableCause.Lib.Grouping
import ProbableCause.Lib.FirstTime
import ProbableCause.Lib.Polling
import ProbableCause.Lib.Matlab
import ProbableCause.Lib.Bisection
import ProbableCause.Lib.Clocked
import ProbableCause.Lib.Countdown
import ProbableCause.Lib.Sdram
import ProbableCause.Lib.WriteBack
import ProbableCause.Lib.Temporal
import ProbableCause.Database.Python
import ProbableCause.Database.Page
import ProbableCause.Database.Files
import ProbableCause.Database.Stitch
import ProbableCause.Database.Layout
import ProbableCause.Database.Merge
import ProbableCause.Database.Invariant
import ProbableCause.Database.Matching
import ProbableCause.Database.Check
import ProbableCause.Database.Alignment
import ProbableCause.Database.AddRun
import ProbableCause.Database.Atomic
import ProbableCause.Database.Stitching
import ProbableCause.Database.Disjoint
import ProbableCause.Database.Order
import ProbableCause.Database.MatchLaw
import ProbableCause.Database.Lossless
import ProbableCause.Database.Twice
import ProbableCause.Database.Parser
import ProbableCause.Database.Numbers
import ProbableCause.Firmware.Flash
import ProbableCause.Firmware.Schedule
import ProbableCause.Firmware.Exposure
import ProbableCause.Firmware.Programs
import ProbableCause.Firmware.WordLoop
import ProbableCause.Firmware.Scan
import ProbableCause.Firmware.Packing
import ProbableCause.Firmware.HeatMap
import ProbableCause.Firmware.WordHeatMap
import ProbableCause.Firmware.Search
import ProbableCause.Firmware.Bracket
import ProbableCause.Firmware.Pins
import ProbableCause.Firmware.Driver
import ProbableCause.Firmware.Sequential
import ProbableCause.Firmware.Picture
import ProbableCause.Firmware.HiddenRefresh
import ProbableCause.Fpga.Clock
import ProbableCause.Fpga.Refresh
import ProbableCause.Fpga.Hello
import ProbableCause.Fpga.ProcessResults
import ProbableCause.Fpga.EndToEnd
import ProbableCause.Fpga.CorruptedLog
import ProbableCause.Fpga.RangeSearch
import ProbableCause.Ddr2.Ctrl
import ProbableCause.Ddr2.RefreshCounter
import ProbableCause.Ddr2.LockUp
import ProbableCause.Ddr2.Controller
import ProbableCause.Ddr2.StateMachine
import ProbableCause.Ddr2.Fetch
import ProbableCause.Ddr2.Timers
import ProbableCause.Ddr2.Banks
import ProbableCause.Ddr2.Timing
import ProbableCause.Ddr2.Bursts
import ProbableCause.Ddr2.Refreshing
import ProbableCause.Ddr2.Bus
import ProbableCause.Ddr2.CacheControl
import ProbableCause.Ddr2.CachePhases
import ProbableCause.Ddr2.CacheSystem
import ProbableCause.Ddr2.CacheClocks
import ProbableCause.Ddr2.CacheTransfer
import ProbableCause.Ddr2.Coherence
import ProbableCause.Ddr2.CacheAnswers
import ProbableCause.Experiment.Script
import ProbableCause.Experiment.Extraction
import ProbableCause.Experiment.ImageRoundTrip
import ProbableCause.Experiment.DelaySearch
import ProbableCause.Experiment.FlipCount
import ProbableCause.Experiment.Heatmap
import ProbableCause.ResultProcessing.Dump
import ProbableCause.ResultProcessing.TwoFiles
import ProbableCause.ResultProcessing.Fingerprints
import ProbableCause.ResultProcessing.CountErrors
import ProbableCause.ResultProcessing.ImageErrors
import ProbableCause.ResultProcessing.RemoveDelay
import ProbableCause.ResultProcessing.Aggregate
import ProbableCause.ResultProcessing.Termination
import ProbableCause.ResultProcessing.Decimation
import ProbableCause.MatlabPicture.Scale
