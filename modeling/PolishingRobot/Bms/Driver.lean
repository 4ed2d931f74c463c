import PolishingRobot.Motor.Drives

/-!
# The battery driver

A timer asks the battery for five kinds of data, the replies fill the members,
and another timer publishes them. A frame or a publication holds the mutex, so
each is one state transformer. The floats are exact.
-/

namespace PolishingRobot.Bms

open Motor (CanFrame)

/-- Seconds, exact. -/
abbrev Time := ℚ

/-- The parameters that the callbacks read, with the defaults of the source. -/
structure Parameters where
  frameId : String := "bms"
  timeoutSec : ℚ := 3
  designCapacity : ℚ := 0
  bmsAddr : Int32 := 0x01
  hostAddr : Int32 := 0x40

/-- The members after construction. -/
structure Config where
  frameId : String
  timeoutSec : ℚ
  designCapacity : ℚ
  bmsAddr : UInt8
  hostAddr : UInt8

/-- The constructor narrows the addresses to a byte. -/
def Config.ofParameters (p : Parameters) : Config where
  frameId := p.frameId
  timeoutSec := p.timeoutSec
  designCapacity := p.designCapacity
  bmsAddr := p.bmsAddr.toInt8.toUInt8
  hostAddr := p.hostAddr.toInt8.toUInt8

/-- The members under `data_mutex_`. -/
structure State where
  gotData : Bool := false
  voltage : ℚ := 0
  current : ℚ := 0
  soc : ℚ := 0
  remainCapacityAh : ℚ := 0
  cdState : UInt8 := 0
  chargerStatus : UInt8 := 0
  loadStatus : UInt8 := 0
  numCells : UInt8 := 0
  numTemps : UInt8 := 0
  maxTemp : ℚ := 0
  minTemp : ℚ := 0
  hasFault : Bool := false
  lastRx : Time := 0
  deriving DecidableEq, Repr

variable (c : Config)

/-- The identifier of a request, with the flag of an extended frame. -/
def sendRequest (dataId : UInt8) : UInt32 :=
  (0x18 : UInt32) <<< 24 ||| dataId.toUInt32 <<< 16 ||| c.bmsAddr.toUInt32 <<< 8 |||
    c.hostAddr.toUInt32 ||| 0x80000000

def idPack : UInt8 := 0x90
def idTemperature : UInt8 := 0x92
def idChargeState : UInt8 := 0x93
def idConnections : UInt8 := 0x94
def idFaults : UInt8 := 0x98

/-- `pollTimer`: the identifiers of the requests. -/
def pollTimer : List UInt32 :=
  [idPack, idTemperature, idChargeState, idConnections, idFaults].map (sendRequest c)

/-- Two bytes, high byte first. -/
def be16 (f : CanFrame) (i : Nat) : Nat := 256 * (f.byte i).toNat + (f.byte (i + 1)).toNat

/-- Four bytes, high byte first. -/
def be32 (f : CanFrame) (i : Nat) : Nat := 65536 * be16 f i + be16 f (i + 2)

/-- The data identifier of a frame from the battery to the host; frames to other
addresses and short frames are passed over. -/
def replyId (f : CanFrame) : Option UInt8 :=
  let id : UInt32 := f.canId &&& 0x1FFFFFFF
  if id &&& (0xFFFF : UInt32) ≠ (c.hostAddr.toUInt32 <<< 8 ||| c.bmsAddr.toUInt32) then none
  else if f.dlc < 8 then none
  else some (id >>> 16).toUInt8

/-- One of the alarm bytes 0 to 6 is not zero. -/
def reportsFault (f : CanFrame) : Bool := (List.range 7).any fun i => f.byte i != 0

/-- The cases of `canCallback`. -/
def receive (now : Time) (dataId : UInt8) (f : CanFrame) (s : State) : State :=
  if dataId = idPack then
    { s with
      voltage := be16 f 0 / 10
      current := ((be16 f 4 : ℚ) - 30000) / 10
      soc := be16 f 6 / 10
      gotData := true
      lastRx := now }
  else if dataId = idTemperature then
    { s with
      maxTemp := ((f.byte 0).toNat : ℚ) - 40
      minTemp := ((f.byte 2).toNat : ℚ) - 40 }
  else if dataId = idChargeState then
    { s with cdState := f.byte 0, remainCapacityAh := be32 f 4 / 1000 }
  else if dataId = idConnections then
    { s with
      numCells := f.byte 0
      numTemps := f.byte 1
      chargerStatus := f.byte 2
      loadStatus := f.byte 3 }
  else if dataId = idFaults then { s with hasFault := reportsFault f }
  else s

def canCallback (now : Time) (f : CanFrame) (s : State) : State :=
  match replyId c f with
  | some dataId => receive now dataId f s
  | none => s

inductive PowerSupplyStatus where
  | unknown
  | charging
  | discharging
  | notCharging
  | full
  deriving DecidableEq, Repr

inductive PowerSupplyHealth where
  | unknown
  | good
  | unspecFailure
  deriving DecidableEq, Repr

/-- The fields of `sensor_msgs/BatteryState` that are set. The technology is
always unknown. -/
structure BatteryState where
  stamp : Time
  frameId : String
  voltage : ℚ
  current : ℚ
  temperature : ℚ
  charge : ℚ
  capacity : ℚ
  designCapacity : ℚ
  percentage : ℚ
  present : Bool
  powerSupplyStatus : PowerSupplyStatus
  powerSupplyHealth : PowerSupplyHealth
  deriving DecidableEq, Repr

/-- The freshness test of `publishTimer`. -/
def isFresh (now : Time) (s : State) : Bool := s.gotData && decide (now - s.lastRx < c.timeoutSec)

/-- The status of fresh data. -/
def freshStatus (s : State) : PowerSupplyStatus :=
  if s.chargerStatus = 1 ∨ s.cdState = 1 then .charging
  else if s.cdState = 2 then .discharging
  else if 199 / 2 ≤ s.soc then .full
  else .notCharging

/-- `publishTimer`: the battery state and the charge in percent. The clock is
read for the stamp, and again under the mutex. -/
def publishTimer (stamp now : Time) (s : State) : BatteryState × ℚ :=
  let fresh := isFresh c now s
  ({ stamp := stamp
     frameId := c.frameId
     voltage := s.voltage
     current := s.current
     temperature := s.maxTemp
     charge := s.remainCapacityAh
     capacity := s.remainCapacityAh
     designCapacity := c.designCapacity
     percentage := max 0 (min (s.soc / 100) 1)
     present := fresh
     powerSupplyStatus := if fresh then freshStatus s else .unknown
     powerSupplyHealth :=
       if fresh then (if s.hasFault then .unspecFailure else .good) else .unknown },
    s.soc)

inductive Event where
  | poll
  | can (now : Time) (f : CanFrame)
  | publish (stamp now : Time)

/-- One callback. -/
def step (s : State) : Event → State
  | .can now f => canCallback c now f s
  | .poll | .publish _ _ => s

end PolishingRobot.Bms
