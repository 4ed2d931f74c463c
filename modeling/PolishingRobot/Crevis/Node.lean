import Mathlib.Data.BitVec
import Mathlib.Data.List.OfFn
import PolishingRobot.Runs.LabelledRuns

/-!
# The Crevis I/O node

Commands for single outputs, the poll and the shutdown, each a sequence of
Modbus transactions under one lock. Between two transactions the connection may
be lost, and without a live connection the outputs may change on their own. In
register mode a command goes out with the other fifteen outputs as the node
remembers them.
-/

namespace PolishingRobot.Crevis

structure Led where
  name : String
  bit : Int
  deriving DecidableEq, Repr

/-- An entry of the parameter `leds`, whose members may be missing. -/
structure LedEntry where
  name : Option String
  bit : Option Int

/-- The parameters that the modelled functions read, with the defaults of the source. -/
structure Parameters where
  writeMode : String := "coil"
  outputCoilBase : Int := 0x1000
  outputRegisterBase : Int := 0x0800
  inputRegisterBase : Int := 0x0000
  inputRegisterCount : Int := 1
  leds : List LedEntry := []
  ledsOffOnShutdown : Bool := false
  chargingBit : Int := 6
  chargingOffOnShutdown : Bool := true

/-- The members after construction. -/
structure Config where
  writeMode : String
  coilBase : Int
  regBase : Int
  inRegBase : Int
  inRegCount : Int
  leds : List Led
  ledsOffOnShutdown : Bool
  chargingBit : Int
  chargingOffOnShutdown : Bool
  readbackNb : Int

/-- Entries with both members; the default mapping when there is none. -/
def loadLeds (entries : List LedEntry) : List Led :=
  match entries.filterMap fun e => e.name.bind fun name => e.bit.map fun bit => ⟨name, bit⟩ with
  | [] => [⟨"vision", 0⟩, ⟨"front", 1⟩, ⟨"side", 2⟩, ⟨"status_red", 3⟩, ⟨"status_green", 4⟩,
      ⟨"status_blue", 5⟩]
  | leds => leds

def Parameters.registerMode (p : Parameters) : Bool := p.writeMode == "register"

/-- The number of coils that the poll asks for. -/
def loadReadbackNb (leds : List Led) (chargingBit : Int) (registerMode : Bool) : Int :=
  let leds := leds.foldl (fun n l => max n (l.bit + 1)) 1
  let charging := max leds (chargingBit + 1)
  if registerMode then max charging 16 else charging

def loadConfig (p : Parameters) : Config where
  writeMode := p.writeMode
  coilBase := p.outputCoilBase
  regBase := p.outputRegisterBase
  inRegBase := p.inputRegisterBase
  inRegCount := p.inputRegisterCount
  leds := loadLeds p.leds
  ledsOffOnShutdown := p.ledsOffOnShutdown
  chargingBit := p.chargingBit
  chargingOffOnShutdown := p.chargingOffOnShutdown
  readbackNb := loadReadbackNb (loadLeds p.leds) p.chargingBit p.registerMode

namespace Config

variable (c : Config)

def registerMode : Bool := c.writeMode == "register"

/-- The outputs that the shutdown switches off, in its order. -/
def shutdownBits : List Int :=
  (if c.ledsOffOnShutdown then c.leds.map Led.bit else []) ++
    if c.chargingOffOnShutdown then [c.chargingBit] else []

/-- The read-back count as it is sent. -/
def readbackQty : UInt16 := UInt16.ofInt c.readbackNb

end Config

inductive Request where
  | readCoils (addr qty : UInt16)
  | readInputRegisters (addr qty : UInt16)
  | writeSingleCoil (addr : UInt16) (on : Bool)
  | writeSingleRegister (addr : UInt16) (value : BitVec 16)
  deriving DecidableEq, Repr

/-- The socket of the client. A dead one is open here and gone on the other side. -/
inductive Link where
  | closed
  | live
  | dead
  deriving DecidableEq, Repr

/-- How a transaction ends. A refused one is answered, but not as asked; a
broken one closes the socket. The device may have acted in both. An answer to a
read of coils carries those of other modules behind the outputs. -/
inductive Outcome where
  | unreachable
  | broken (acted : Bool)
  | refused (acted : Bool)
  | answered (beyond : List Bool)
  deriving DecidableEq, Repr

/-- What a transaction does: whether the device acted, whether the client
returns true, and the socket afterwards. -/
structure Transacted where
  acted : Bool
  ok : Bool
  link : Link

/-- `transact` opens a closed socket first. -/
def transact : Link → Outcome → Option Transacted
  | .closed, .unreachable => some ⟨false, false, .closed⟩
  | .live, .unreachable | .dead, .unreachable => none
  | .dead, .broken false => some ⟨false, false, .closed⟩
  | .dead, _ => none
  | _, .broken acted => some ⟨acted, false, .closed⟩
  | _, .refused acted => some ⟨acted, false, .live⟩
  | _, .answered _ => some ⟨true, true, .live⟩

/-- The effect of a request on the outputs: the coils from `coilBase` on and the
register at `regBase` are the same sixteen bits. -/
def Request.effect (c : Config) (outputs : BitVec 16) : Request → BitVec 16
  | .writeSingleRegister addr value => if addr = UInt16.ofInt c.regBase then value else outputs
  | .writeSingleCoil addr on =>
      let bit := (addr - UInt16.ofInt c.coilBase).toNat
      if on then outputs ||| 1#16 <<< bit else outputs &&& ~~~(1#16 <<< bit)
  | _ => outputs

/-- The coils that a complete answer carries. -/
def coilsRead (outputs : BitVec 16) (qty : UInt16) (beyond : List Bool) : List Bool :=
  ((List.ofFn fun i : Fin 16 => outputs.getLsbD i) ++ beyond).take qty.toNat

/-- What a register write is for. -/
inductive Purpose where
  | command (bit : Nat) (on : Bool)
  | shutdown
  deriving DecidableEq, Repr

/-- Where the node stands: between callbacks, or before the next transaction of one. -/
inductive Pc where
  | idle
  | sync (p : Purpose)
  | writeRegister (p : Purpose)
  | writeCoil (bit : Nat) (on : Bool)
  | pollOpen
  | pollCoils
  | pollRegs (coils : Option (List Bool))
  | shutdownCoils (bit : Int) (rest : List Int)
  | done
  deriving DecidableEq, Repr

/-- `outShadow` is `none` after a shift that the source leaves undefined. -/
structure State where
  link : Link
  outShadow : Option (BitVec 32)
  outShadowValid : Bool
  pc : Pc
  outputs : BitVec 16

def setBit (shadow : BitVec 32) (bit : Nat) (on : Bool) : BitVec 32 :=
  if on then shadow ||| 1#32 <<< bit else shadow &&& ~~~(1#32 <<< bit)

/-- Switch bits off one by one; a shift by a bit outside the word is undefined. -/
def clearBits (bits : List Int) (shadow : Option (BitVec 32)) : Option (BitVec 32) :=
  bits.foldl (fun shadow bit => shadow.bind fun v =>
    if 0 ≤ bit ∧ bit < 32 then some (setBit v bit.toNat false) else none) shadow

/-- The first sixteen coils as a word. -/
def shadowOf (coils : List Bool) : BitVec 32 :=
  (coils.take 16).zipIdx.foldl (fun v p => if p.1 then v ||| 1#32 <<< p.2 else v) 0

inductive Label where
  | led (l : Led) (on : Bool)
  | charging (on : Bool)
  | poll
  | shutdown
  /-- The poll opens the socket, or tries to. -/
  | connect (ok : Bool)
  | transaction (o : Outcome)
  /-- The connection is lost; the client does not know yet. -/
  | lose
  /-- The outputs change on their own. -/
  | change (outputs : BitVec 16)
  deriving DecidableEq, Repr

namespace State

variable (c : Config) (s : State)

/-- The register value that the node sends. -/
def registerValue : Option (BitVec 16) := s.outShadow.map (BitVec.setWidth 16)

/-- The shadow takes the bits of the purpose, and the register is written next. -/
def prepare : Purpose → State
  | .command bit on =>
      { s with outShadow := s.outShadow.map fun v => setBit v bit on
               pc := .writeRegister (.command bit on) }
  | .shutdown =>
      { s with outShadow := clearBits c.shutdownBits s.outShadow, pc := .writeRegister .shutdown }

/-- `writeOutputLocked`, up to its first transaction. -/
def writeOutput (bit : Int) (on : Bool) : State :=
  if bit < 0 ∨ 16 ≤ bit then s
  else if c.registerMode then
    if s.outShadowValid then s.prepare c (.command bit.toNat on)
    else { s with pc := .sync (.command bit.toNat on) }
  else { s with pc := .writeCoil bit.toNat on }

/-- The end of `onShutdown`. -/
def close : State := { s with link := .closed, pc := .done }

/-- The next coil that the shutdown switches off. -/
def shutdownCoils : List Int → State
  | [] => s.close
  | bit :: rest => { s with pc := .shutdownCoils bit rest }

/-- `onShutdown`, up to its first transaction. -/
def onShutdown : State :=
  if c.registerMode then
    if c.ledsOffOnShutdown || c.chargingOffOnShutdown then
      if s.outShadowValid then s.prepare c .shutdown else { s with pc := .sync .shutdown }
    else s.close
  else s.shutdownCoils c.shutdownBits

/-- The request of the next transaction; a register value that is undefined is
some value, here 0. -/
def request : Option Request :=
  match s.pc with
  | .sync _ => some (.readCoils (UInt16.ofInt c.coilBase) 16)
  | .writeRegister _ =>
      some (.writeSingleRegister (UInt16.ofInt c.regBase) (s.registerValue.getD 0))
  | .writeCoil bit on => some (.writeSingleCoil (UInt16.ofInt (c.coilBase + bit)) on)
  | .pollCoils => some (.readCoils (UInt16.ofInt c.coilBase) c.readbackQty)
  | .pollRegs _ =>
      some (.readInputRegisters (UInt16.ofInt c.inRegBase) (UInt16.ofInt c.inRegCount))
  | .shutdownCoils bit _ => some (.writeSingleCoil (UInt16.ofInt (c.coilBase + bit)) false)
  | .idle | .pollOpen | .done => none

/-- The coils that the answer to the request carries. -/
def answer (o : Outcome) : Option (List Bool) :=
  match s.request c, o with
  | some (.readCoils _ qty), .answered beyond => some (coilsRead s.outputs qty beyond)
  | _, _ => none

/-- The shadow is set from coils. -/
def setShadow (coils : List Bool) : State :=
  { s with outShadow := some (shadowOf coils), outShadowValid := true }

/-- The callback goes on after a transaction: `ok` is what the client returned,
`coils` what it read. -/
def resume (ok : Bool) (coils : Option (List Bool)) : State :=
  match s.pc with
  | .sync p =>
      match coils, p with
      | some coils, p => (s.setShadow coils).prepare c p
      | none, .command _ _ => { s with pc := .idle }
      | none, .shutdown => s.close
  | .writeRegister (.command _ _) =>
      { s with outShadowValid := s.outShadowValid && ok, pc := .idle }
  | .writeRegister .shutdown => s.close
  | .writeCoil _ _ => { s with pc := .idle }
  | .pollCoils =>
      let s := match coils with
        | some coils => if c.registerMode then s.setShadow coils else s
        | none => s
      { s with pc := if 0 < c.inRegCount then .pollRegs coils else .idle }
  | .pollRegs _ => { s with pc := .idle }
  | .shutdownCoils _ rest => s.shutdownCoils rest
  | .idle | .pollOpen | .done => s

end State

/-- The answer to a read of coils is complete. -/
def Outcome.completes (o : Outcome) : Option Request → Bool
  | some (.readCoils _ qty) =>
      match o with
      | .answered beyond => qty.toNat ≤ 16 + beyond.length
      | _ => true
  | _ => true

/-- A step of the node with its device. Callbacks start one at a time. -/
def step (c : Config) (s : State) : Label → Option State
  | .led l on => if s.pc = .idle ∧ l ∈ c.leds then some (s.writeOutput c l.bit on) else none
  | .charging on => if s.pc = .idle then some (s.writeOutput c c.chargingBit on) else none
  | .poll =>
      if s.pc = .idle then
        some { s with pc := if s.link = .closed then .pollOpen else .pollCoils }
      else none
  | .shutdown => if s.pc = .idle then some (s.onShutdown c) else none
  | .connect ok =>
      if s.pc = .pollOpen then
        some { s with link := if ok then .live else .closed, pc := .pollCoils }
      else none
  | .transaction o =>
      if o.completes (s.request c) then
        (s.request c).bind fun r => (transact s.link o).map fun t =>
          { s with
            link := t.link
            outputs := if t.acted then r.effect c s.outputs else s.outputs }.resume c t.ok
              (s.answer c o)
      else none
  | .lose => if s.link = .live then some { s with link := .dead } else none
  | .change outputs => if s.link = .live then none else some { s with outputs := outputs }

/-- The node after its constructor, with whatever the outputs are. -/
def start (outputs : BitVec 16) : State := ⟨.closed, some 0, false, .idle, outputs⟩

end PolishingRobot.Crevis
