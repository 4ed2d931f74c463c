import PolishingRobot.Runs.LabelledRuns
import PolishingRobot.Runs.StreamReaders
import PolishingRobot.Runs.ThreadPool
import PolishingRobot.Lift.RoundTrip
import PolishingRobot.Lift.Driver
import PolishingRobot.Lift.Stages
import PolishingRobot.Lift.Frame
import PolishingRobot.Lift.AlarmLockout
import PolishingRobot.Lift.OriginReset
import PolishingRobot.Lift.PositionArithmetic
import PolishingRobot.Lift.ReleaseDirection
import PolishingRobot.Lift.ManualStop
import PolishingRobot.Lift.Freshness
import PolishingRobot.Lift.DriveLink
import PolishingRobot.Lift.RelativeMoves
import PolishingRobot.Lift.Resume
import PolishingRobot.Safety.Configuration
import PolishingRobot.Safety.ModbusTcpClient
import PolishingRobot.Safety.UnifiedEstop
import PolishingRobot.Safety.AnswerFraming
import PolishingRobot.Motor.Drives
import PolishingRobot.Motor.Node
import PolishingRobot.Motor.Steps
import PolishingRobot.Motor.DisabledTargets
import PolishingRobot.Motor.ServoOn
import PolishingRobot.Motor.HealthyDrives
import PolishingRobot.Motor.CommandWatchdog
import PolishingRobot.Motor.DriveComplaints
import PolishingRobot.Motor.LateServoOn
import PolishingRobot.Crevis.OutputShadow
import PolishingRobot.Base.Loopback
import PolishingRobot.Motor.ProcessData
import PolishingRobot.Params.AdditiveMerge
import PolishingRobot.Params.Documents
import PolishingRobot.Params.Blocks
import PolishingRobot.Params.Plan
import PolishingRobot.Params.MergedLines
import PolishingRobot.Lift.SpeedDirections
import PolishingRobot.Lift.Silence
import PolishingRobot.Motor.WireSpeeds
import PolishingRobot.Bms.Driver
import PolishingRobot.Bms.StaleParts
import PolishingRobot.Crevis.ModbusTcp
import PolishingRobot.Crevis.ReadAnswers
import PolishingRobot.Safety.SignalRanges
import PolishingRobot.Crevis.AnswerOwnership
import PolishingRobot.Crevis.OutOfModuleBits
import PolishingRobot.Base.SpeedLimits
import PolishingRobot.Base.InvalidGeometry
import PolishingRobot.Motor.OwnFrames
import PolishingRobot.Motor.TickReadings
import PolishingRobot.Motor.FaultReports
import PolishingRobot.Motor.QuickStops
import PolishingRobot.Motor.Reconfiguration
import PolishingRobot.Motor.HoldingZero
import PolishingRobot.Lift.FrameOrigins
import PolishingRobot.Lift.LiveVelocity
import PolishingRobot.Lift.ResetBudget
import PolishingRobot.Lift.ScannerProgress
import PolishingRobot.Params.KeptLines
import PolishingRobot.Params.UserKeys
import PolishingRobot.Base.Odometry
import PolishingRobot.Teleop.Keyboard
import PolishingRobot.Teleop.StaleKeys
import PolishingRobot.System.DriveChain
import PolishingRobot.Motor.Handshakes
import PolishingRobot.Safety.ProcessImage
import PolishingRobot.Safety.DeviceLocks
import PolishingRobot.Lift.HomingOrders
import PolishingRobot.Lift.HomingRun
import PolishingRobot.Crevis.Board
import PolishingRobot.Bms.Readings
import PolishingRobot.Params.TemplateUpdates
import PolishingRobot.Can.Interface
import PolishingRobot.Motor.DriveMappings
import PolishingRobot.Lists.Occurrences
import PolishingRobot.Teleop.HeldKeys
