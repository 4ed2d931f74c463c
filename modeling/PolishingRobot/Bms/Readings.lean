import PolishingRobot.Bms.Driver
import PolishingRobot.Runs.LabelledRuns
import PolishingRobot.Wire.Bits
import PolishingRobot.Wire.Packing

/-!
# From the measurements to the topics

The battery answers the requests that reach it, each with what it measures at
that moment; requests and replies can be lost, and other nodes use the bus. The
ledger keeps the newest measurement of each kind that has reached the driver. A
publication shows the ledger.
-/

namespace PolishingRobot.Bms

open Motor (CanFrame)
open Runs Wire

/-- The kinds of data that the driver asks for. -/
inductive Kind where
  | pack
  | temperature
  | chargeState
  | connections
  | faults
  deriving DecidableEq, Repr

namespace Kind

def id : Kind → UInt8
  | pack => idPack
  | temperature => idTemperature
  | chargeState => idChargeState
  | connections => idConnections
  | faults => idFaults

def all : List Kind := [pack, temperature, chargeState, connections, faults]

end Kind

/-- What the battery measures, in the units of its replies. -/
structure Measurement where
  decivolts : ℕ
  deciamps : ℤ
  permille : ℕ
  maxTemp : ℤ
  minTemp : ℤ
  cdState : UInt8
  milliampHours : ℕ
  numCells : UInt8
  numTemps : UInt8
  charger : UInt8
  load : UInt8
  alarms : List Bool
  decivolts_lt : decivolts < 2 ^ 16
  deciamps_range : -30000 ≤ deciamps ∧ deciamps < 2 ^ 16 - 30000
  permille_lt : permille < 2 ^ 16
  maxTemp_range : -40 ≤ maxTemp ∧ maxTemp < 2 ^ 8 - 40
  minTemp_range : -40 ≤ minTemp ∧ minTemp < 2 ^ 8 - 40
  milliampHours_lt : milliampHours < 2 ^ 32
  alarms_length : alarms.length = 56

/-- The bytes of a number, high byte first. -/
def beBytes (k n : ℕ) : List UInt8 := (leBytes k n).reverse

/-- A reply with the measurement that it was made from. The host does not read
all of its bytes, and the others can be anything. -/
structure Reply where
  kind : Kind
  measured : Measurement
  unread : ℕ → UInt8

namespace Reply

variable (r : Reply)

def payload : List UInt8 :=
  let m := r.measured
  match r.kind with
  | .pack =>
      beBytes 2 m.decivolts ++ [r.unread 2, r.unread 3] ++ beBytes 2 (m.deciamps + 30000).toNat ++
        beBytes 2 m.permille
  | .temperature =>
      [UInt8.ofNat (m.maxTemp + 40).toNat, r.unread 1, UInt8.ofNat (m.minTemp + 40).toNat] ++
        [r.unread 3, r.unread 4, r.unread 5, r.unread 6, r.unread 7]
  | .chargeState =>
      [m.cdState, r.unread 1, r.unread 2, r.unread 3] ++ beBytes 4 m.milliampHours
  | .connections =>
      [m.numCells, m.numTemps, m.charger, m.load] ++
        [r.unread 4, r.unread 5, r.unread 6, r.unread 7]
  | .faults => packBits m.alarms ++ [r.unread 7]

theorem payload_length : r.payload.length = 8 := by
  cases hkind : r.kind <;> simp [payload, hkind, beBytes, r.measured.alarms_length]

end Reply

variable (c : Config)

/-- The identifier of an extended frame, by its parts. -/
def extendedId (dataId target source : UInt8) : ℕ :=
  0x98000000 + 65536 * dataId.toNat + 256 * target.toNat + source.toNat

def Reply.frame (r : Reply) : CanFrame where
  canId := UInt32.ofNat (extendedId r.kind.id c.hostAddr c.bmsAddr)
  dlc := 8
  data := r.payload
  dlc_le := le_rfl
  data_length := r.payload_length

/-- What the battery reads in a request; frames to or from others are not for
it. -/
def asked (id : UInt32) : Option Kind :=
  Kind.all.find? fun k => id.toNat = extendedId k.id c.bmsAddr c.hostAddr

/-- Not a reply to the host: another target or source, another kind of data, or
too short. -/
def Foreign (f : CanFrame) : Prop :=
  f.canId.toNat % 65536 ≠ 256 * c.hostAddr.toNat + c.bmsAddr.toNat ∨ f.dlc < 8 ∨
    ∀ k ∈ Kind.all, f.canId.toNat / 65536 % 256 ≠ k.id.toNat

instance (f : CanFrame) : Decidable (Foreign c f) := inferInstanceAs (Decidable (_ ∨ _ ∨ _))

/-- The driver, the requests that have not reached the battery yet, and the
replies that have not reached the driver yet. -/
structure Bus where
  driver : State := {}
  requests : List UInt32 := []
  replies : List Reply := []

inductive BusEvent where
  | poll
  /-- A request reaches the battery. -/
  | answer (i : ℕ) (measured : Measurement) (unread : ℕ → UInt8)
  | loseRequest (i : ℕ)
  /-- A reply reaches the driver. -/
  | deliver (i : ℕ) (now : Time)
  | loseReply (i : ℕ)
  | foreign (now : Time) (f : CanFrame)
  | publish (stamp now : Time)

/-- One event. Requests and replies can overtake each other. -/
def busStep (b : Bus) : BusEvent → Option Bus
  | .poll => some { b with requests := b.requests ++ pollTimer c }
  | .answer i m unread =>
      b.requests[i]?.map fun id =>
        { b with
          requests := b.requests.eraseIdx i
          replies := b.replies ++ ((asked c id).map fun k => ⟨k, m, unread⟩).toList }
  | .loseRequest i => some { b with requests := b.requests.eraseIdx i }
  | .deliver i now =>
      b.replies[i]?.map fun r =>
        { b with
          driver := canCallback c now (r.frame c) b.driver
          replies := b.replies.eraseIdx i }
  | .loseReply i => some { b with replies := b.replies.eraseIdx i }
  | .foreign now f =>
      if Foreign c f then some { b with driver := canCallback c now f b.driver } else none
  | .publish _ _ => some b

/-- The newest measurement of each kind that has reached the driver, with the
time of its arrival. -/
abbrev Ledger := Kind → Option (Time × Measurement)

namespace Ledger

variable (l : Ledger)

def after (b : Bus) (e : BusEvent) : Ledger :=
  match e with
  | .deliver i now =>
      match b.replies[i]? with
      | some r => Function.update l r.kind (some (now, r.measured))
      | none => l
  | _ => l

/-- A value of the newest measurement of a kind, or what holds before there is
one. -/
def read {α : Type} (k : Kind) (f : Measurement → α) (before : α) : α :=
  match l k with
  | some (_, m) => f m
  | none => before

/-- The charge in percent. -/
def percent : ℚ := l.read .pack (fun m => m.permille / 10) 0

/-- Amperes that hours would use up. -/
def ampHours : ℚ := l.read .chargeState (fun m => m.milliampHours / 1000) 0

/-- Pack data have arrived within the timeout. -/
def Present (now : Time) : Prop :=
  ∃ rxTime m, l .pack = some (rxTime, m) ∧ now - rxTime < c.timeoutSec

instance (now : Time) : Decidable (l.Present c now) :=
  match h : l .pack with
  | some (rxTime, m) => decidable_of_iff (now - rxTime < c.timeoutSec) (by simp [Present, h])
  | none => isFalse (by simp [Present, h])

/-- The charger is connected, or the battery says that it charges. -/
def Charges : Prop :=
  l.read .connections (fun m => m.charger) 0 = 1 ∨ l.read .chargeState (fun m => m.cdState) 0 = 1

instance : Decidable l.Charges := inferInstanceAs (Decidable (_ ∨ _))

def status : PowerSupplyStatus :=
  if l.Charges then .charging
  else if l.read .chargeState (fun m => m.cdState) 0 = 2 then .discharging
  else if 995 ≤ l.read .pack (fun m => m.permille) 0 then .full
  else .notCharging

def health : PowerSupplyHealth :=
  if l.read .faults (fun m => m.alarms.any fun alarm => alarm) false then .unspecFailure else .good

/-- What the two topics should show. -/
def display (stamp now : Time) : BatteryState × ℚ :=
  ({ stamp := stamp
     frameId := c.frameId
     voltage := l.read .pack (fun m => m.decivolts / 10) 0
     current := l.read .pack (fun m => m.deciamps / 10) 0
     temperature := l.read .temperature (fun m => m.maxTemp) 0
     charge := l.ampHours
     capacity := l.ampHours
     designCapacity := c.designCapacity
     percentage := min (l.percent / 100) 1
     present := l.Present c now
     powerSupplyStatus := if l.Present c now then l.status else .unknown
     powerSupplyHealth := if l.Present c now then l.health else .unknown },
    l.percent)

end Ledger

/-- The driver on the bus with the ledger. -/
def recorded (c : Config) : Bus × Ledger → BusEvent → Option (Bus × Ledger) :=
  observe (busStep c) fun b e l => l.after b e

/-- A publication shows the ledger, a poll asks for every kind of data, and the
frames of others change nothing. -/
def Shows (c : Config) (w : Bus × Ledger) (e : BusEvent) (w' : Bus × Ledger) : Prop :=
  match e with
  | .publish stamp now => publishTimer c stamp now w.1.driver = w.2.display c stamp now
  | .poll =>
      w'.1.requests.filterMap (asked c) = w.1.requests.filterMap (asked c) ++ Kind.all
  | .foreign _ _ => w'.1.driver = w.1.driver
  | _ => True

variable {c} {b : Bus} {l : Ledger} {r : Reply} {now : Time}

namespace Kind

theorem mem_all (k : Kind) : k ∈ all := by
  cases k <;> simp [all]

theorem id_injective {k k' : Kind} (h : k.id = k'.id) : k = k' := by
  revert h
  cases k <;> cases k' <;> decide

end Kind

theorem extendedId_parts (dataId target source : UInt8) :
    extendedId dataId target source < 2 ^ 32 ∧
      extendedId dataId target source % 65536 = 256 * target.toNat + source.toNat ∧
      extendedId dataId target source / 65536 % 256 = dataId.toNat := by
  have hdata := dataId.toNat_lt
  have htarget := target.toNat_lt
  have hsource := source.toNat_lt
  unfold extendedId
  refine ⟨?_, ?_, ?_⟩ <;> omega

/-- A byte moved up by whole bytes. -/
theorem toNat_shiftLeft (x : UInt8) {k : ℕ} (hk : k ≤ 24) :
    (x.toUInt32 <<< UInt32.ofNat k).toNat = 2 ^ k * x.toNat := by
  have hx := x.toNat_lt
  have hk' : k % 2 ^ 32 % 32 = k := by omega
  have hlt : 2 ^ k * x.toNat < 2 ^ 32 := by
    calc 2 ^ k * x.toNat ≤ 2 ^ 24 * x.toNat :=
          Nat.mul_le_mul_right _ (Nat.pow_le_pow_right (by norm_num) hk)
      _ < 2 ^ 32 := by omega
  rw [UInt32.toNat_shiftLeft, UInt8.toNat_toUInt32, UInt32.toNat_ofNat', hk', Nat.shiftLeft_eq,
    Nat.mul_comm, Nat.mod_eq_of_lt hlt]

/-- The addresses of a reply, as the driver joins them. -/
theorem toNat_addresses (host bms : UInt8) :
    (host.toUInt32 <<< 8 ||| bms.toUInt32).toNat = 256 * host.toNat + bms.toNat := by
  have hshift : (host.toUInt32 <<< 8).toNat = 2 ^ 8 * host.toNat := toNat_shiftLeft host (by decide)
  rw [UInt32.toNat_or, hshift, UInt8.toNat_toUInt32,
    ← Nat.two_pow_add_eq_or_of_lt (Nat.lt_of_lt_of_eq bms.toNat_lt rfl)]

/-- The driver reads the parts of an identifier. -/
theorem replyId_eq (f : CanFrame) :
    replyId c f =
      if f.canId.toNat % 65536 = 256 * c.hostAddr.toNat + c.bmsAddr.toNat ∧ 8 ≤ f.dlc then
        some (UInt8.ofNat (f.canId.toNat / 65536))
      else none := by
  have hlow : ((f.canId &&& (0x1FFFFFFF : UInt32)) &&& (0xFFFF : UInt32)).toNat =
      f.canId.toNat % 65536 := by
    rw [UInt32.toNat_and, UInt32.toNat_and]
    change f.canId.toNat &&& (2 ^ 29 - 1) &&& (2 ^ 16 - 1) = _
    rw [Nat.and_two_pow_sub_one_eq_mod, Nat.and_two_pow_sub_one_eq_mod]
    omega
  have hdata : ((f.canId &&& (0x1FFFFFFF : UInt32)) >>> 16).toUInt8 =
      UInt8.ofNat (f.canId.toNat / 65536) := by
    apply UInt8.toNat_inj.mp
    rw [UInt32.toNat_toUInt8, UInt32.toNat_shiftRight, UInt32.toNat_and, UInt8.toNat_ofNat']
    change (f.canId.toNat &&& (2 ^ 29 - 1)) >>> 16 % 2 ^ 8 = _
    rw [Nat.and_two_pow_sub_one_eq_mod, Nat.shiftRight_eq_div_pow]
    omega
  have haddress : (f.canId &&& (0x1FFFFFFF : UInt32)) &&& (0xFFFF : UInt32) =
      c.hostAddr.toUInt32 <<< 8 ||| c.bmsAddr.toUInt32 ↔
        f.canId.toNat % 65536 = 256 * c.hostAddr.toNat + c.bmsAddr.toNat := by
    rw [← UInt32.toNat_inj, hlow, toNat_addresses]
  unfold replyId
  dsimp only
  rw [hdata]
  by_cases hto : f.canId.toNat % 65536 = 256 * c.hostAddr.toNat + c.bmsAddr.toNat
  · rw [if_neg (not_not_intro (haddress.mpr hto))]
    by_cases hshort : f.dlc < 8
    · rw [if_pos hshort, if_neg (fun h => absurd h.2 (Nat.not_le_of_lt hshort))]
    · rw [if_neg hshort, if_pos ⟨hto, Nat.le_of_not_lt hshort⟩]
  · rw [if_pos (fun h => hto (haddress.mp h)), if_neg (fun h => hto h.1)]

/-- A reply is taken for what it is. -/
theorem replyId_frame (r : Reply) : replyId c (r.frame c) = some r.kind.id := by
  obtain ⟨hlt, hlow, hdata⟩ := extendedId_parts r.kind.id c.hostAddr c.bmsAddr
  have hid : (r.frame c).canId.toNat = extendedId r.kind.id c.hostAddr c.bmsAddr := by
    change (UInt32.ofNat _).toNat = _
    rw [UInt32.toNat_ofNat', Nat.mod_eq_of_lt hlt]
  rw [replyId_eq, hid, if_pos ⟨hlow, le_rfl⟩]
  congr 1
  apply UInt8.toNat_inj.mp
  rw [UInt8.toNat_ofNat', hdata]

/-- Other kinds of data change nothing. -/
theorem receive_of_unknown {dataId : UInt8} (h : ∀ k : Kind, dataId ≠ k.id) (now : Time)
    (f : CanFrame) (s : State) : receive now dataId f s = s := by
  have hpack : dataId ≠ idPack := h .pack
  have htemperature : dataId ≠ idTemperature := h .temperature
  have hcharge : dataId ≠ idChargeState := h .chargeState
  have hconnections : dataId ≠ idConnections := h .connections
  have hfaults : dataId ≠ idFaults := h .faults
  rw [receive, if_neg hpack, if_neg htemperature, if_neg hcharge, if_neg hconnections,
    if_neg hfaults]

/-- The frames of others change nothing. -/
theorem canCallback_foreign {f : CanFrame} (hf : Foreign c f) (now : Time) (s : State) :
    canCallback c now f s = s := by
  unfold canCallback
  rw [replyId_eq]
  split
  · rename_i dataId hid
    split at hid
    · rename_i hto
      obtain rfl := Option.some.inj hid
      have hkind : ∀ k : Kind, UInt8.ofNat (f.canId.toNat / 65536) ≠ k.id := by
        intro k hk
        rcases hf with hother | hshort | hdata
        · exact hother hto.1
        · exact absurd hto.2 (Nat.not_le_of_lt hshort)
        · apply hdata k k.mem_all
          rw [← hk, UInt8.toNat_ofNat']
      exact receive_of_unknown hkind now f s
    · cases hid
  · rfl

theorem toNat_sendRequest (dataId : UInt8) :
    (sendRequest c dataId).toNat = extendedId dataId c.bmsAddr c.hostAddr := by
  have hdata := dataId.toNat_lt
  have hbms := c.bmsAddr.toNat_lt
  have hhost := c.hostAddr.toNat_lt
  have hdata' : (dataId.toUInt32 <<< 16).toNat = 2 ^ 16 * dataId.toNat :=
    toNat_shiftLeft dataId (by decide)
  have hbms' : (c.bmsAddr.toUInt32 <<< 8).toNat = 2 ^ 8 * c.bmsAddr.toNat :=
    toNat_shiftLeft c.bmsAddr (by decide)
  have hfirst : 2 ^ 24 * 24 ||| 2 ^ 16 * dataId.toNat = 2 ^ 16 * (2 ^ 8 * 24 + dataId.toNat) := by
    rw [← Nat.two_pow_add_eq_or_of_lt (by omega)]
    ring
  have hsecond : 2 ^ 16 * (2 ^ 8 * 24 + dataId.toNat) ||| 2 ^ 8 * c.bmsAddr.toNat =
      2 ^ 8 * (2 ^ 8 * (2 ^ 8 * 24 + dataId.toNat) + c.bmsAddr.toNat) := by
    rw [← Nat.two_pow_add_eq_or_of_lt (by omega)]
    ring
  unfold sendRequest
  rw [UInt32.toNat_or, UInt32.toNat_or, UInt32.toNat_or, UInt32.toNat_or, hdata', hbms',
    UInt8.toNat_toUInt32]
  change 2 ^ 24 * 24 ||| _ ||| _ ||| _ ||| 2 ^ 31 * 1 = _
  rw [hfirst, hsecond, ← Nat.two_pow_add_eq_or_of_lt (by omega), Nat.or_comm,
    ← Nat.two_pow_add_eq_or_of_lt (by omega), extendedId]
  omega

/-- The battery reads the request for each kind of data. -/
theorem asked_sendRequest (k : Kind) : asked c (sendRequest c k.id) = some k := by
  have hsame : ∀ k' : Kind, (sendRequest c k.id).toNat = extendedId k'.id c.bmsAddr c.hostAddr ↔
      k = k' := by
    intro k'
    rw [toNat_sendRequest]
    constructor
    · intro h
      have hparts := (extendedId_parts k.id c.bmsAddr c.hostAddr).2.2
      rw [h, (extendedId_parts k'.id c.bmsAddr c.hostAddr).2.2] at hparts
      exact Kind.id_injective (UInt8.toNat_inj.mp hparts.symm)
    · rintro rfl
      rfl
  simp only [asked, hsame]
  cases k <;> rfl

theorem asked_pollTimer : (pollTimer c).filterMap (asked c) = Kind.all := by
  have hids : pollTimer c = Kind.all.map fun k => sendRequest c k.id := rfl
  rw [hids, List.filterMap_map]
  have hsome : (asked c ∘ fun k : Kind => sendRequest c k.id) = some := funext asked_sendRequest
  rw [hsome, List.filterMap_some]

theorem beBytes_four (n : ℕ) : beBytes 4 n = beBytes 2 (n / 65536) ++ beBytes 2 n := by
  simp only [beBytes, leBytes, List.reverse_cons, List.reverse_nil, List.nil_append,
    List.cons_append, Nat.div_div_eq_div_mul]

/-- A number of two bytes is read back. -/
theorem toNat_two_bytes (n : ℕ) :
    256 * (UInt8.ofNat (n / 256)).toNat + (UInt8.ofNat n).toNat = n % 2 ^ 16 := by
  rw [UInt8.toNat_ofNat', UInt8.toNat_ofNat']
  omega

/-- A temperature is read back. -/
theorem toNat_ofNat_offset {t : ℤ} (h : -40 ≤ t ∧ t < 2 ^ 8 - 40) :
    ((UInt8.ofNat (t + 40).toNat).toNat : ℚ) - 40 = t := by
  have hlt : (t + 40).toNat < 2 ^ 8 := by omega
  have hcast : (((t + 40).toNat : ℤ) : ℚ) = ((t + 40 : ℤ) : ℚ) := by
    rw [Int.toNat_of_nonneg (by omega)]
  rw [UInt8.toNat_ofNat', Nat.mod_eq_of_lt hlt]
  push_cast at hcast
  rw [hcast]
  ring

/-- A byte is zero exactly if all of its bits are. -/
theorem byte_ne_zero_iff (b : UInt8) : b ≠ 0 ↔ ∃ k < 8, b.toNat.testBit k = true := by
  constructor
  · intro hb
    have hne : b.toNat ≠ 0 := fun h => hb (UInt8.toNat_inj.mp h)
    obtain ⟨k, hk⟩ := Nat.exists_testBit_of_ne_zero hne
    refine ⟨k, ?_, hk⟩
    have hlt : 2 ^ k < 2 ^ 8 := (Nat.ge_two_pow_of_testBit hk).trans_lt b.toNat_lt
    exact (Nat.pow_lt_pow_iff_right (by decide)).mp hlt
  · rintro ⟨k, -, hk⟩ rfl
    simp at hk

/-- The bytes report an alarm exactly if there is one. -/
theorem any_packBits {alarms : List Bool} (h : alarms.length = 56) :
    ((List.range 7).any fun i => (packBits alarms).getD i 0 != 0) =
      alarms.any fun alarm => alarm := by
  apply Bool.eq_iff_iff.mpr
  simp only [List.any_eq_true, List.mem_range, bne_iff_ne, byte_ne_zero_iff]
  constructor
  · rintro ⟨i, hi, k, hk, hbit⟩
    have hlt : 8 * i + k < alarms.length := by omega
    have hpacked : packedBit (packBits alarms) (8 * i + k) = true := by
      rw [packedBit, show (8 * i + k) / 8 = i by omega, show (8 * i + k) % 8 = k by omega]
      exact hbit
    rw [packedBit_packBits hlt, List.getD_eq_getElem _ _ hlt] at hpacked
    exact ⟨_, List.getElem_mem hlt, hpacked⟩
  · rintro ⟨alarm, hmem, halarm⟩
    obtain ⟨j, hj, rfl⟩ := List.getElem_of_mem hmem
    refine ⟨j / 8, by omega, j % 8, by omega, ?_⟩
    have hpacked := packedBit_packBits hj
    rw [List.getD_eq_getElem _ _ hj, halarm] at hpacked
    exact hpacked

/-- The members that the ledger explains. -/
def Ledger.mirror (l : Ledger) : State where
  gotData := (l .pack).isSome
  voltage := l.read .pack (fun m => m.decivolts / 10) 0
  current := l.read .pack (fun m => m.deciamps / 10) 0
  soc := l.percent
  remainCapacityAh := l.ampHours
  cdState := l.read .chargeState (fun m => m.cdState) 0
  chargerStatus := l.read .connections (fun m => m.charger) 0
  loadStatus := l.read .connections (fun m => m.load) 0
  numCells := l.read .connections (fun m => m.numCells) 0
  numTemps := l.read .connections (fun m => m.numTemps) 0
  maxTemp := l.read .temperature (fun m => m.maxTemp) 0
  minTemp := l.read .temperature (fun m => m.minTemp) 0
  hasFault := l.read .faults (fun m => m.alarms.any fun alarm => alarm) false
  lastRx := (l .pack).elim 0 Prod.fst

namespace Ledger

variable {α : Type} {k k' : Kind} {m : Measurement} {f : Measurement → α} {before : α}

@[simp] theorem read_update_self :
    Ledger.read (Function.update l k (some (now, m))) k f before = f m := by
  simp [read]

theorem read_update_of_ne (h : k' ≠ k) :
    Ledger.read (Function.update l k (some (now, m))) k' f before = l.read k' f before := by
  simp [read, h]

end Ledger

theorem be16_frame (r : Reply) (i : ℕ) :
    be16 (r.frame c) i = 256 * (r.payload.getD i 0).toNat + (r.payload.getD (i + 1) 0).toNat := rfl

section Replies

variable (m : Measurement) (unread : ℕ → UInt8)

theorem be16_pack :
    be16 (Reply.frame c ⟨.pack, m, unread⟩) 0 = m.decivolts ∧
      ((be16 (Reply.frame c ⟨.pack, m, unread⟩) 4 : ℕ) : ℚ) - 30000 = m.deciamps ∧
      be16 (Reply.frame c ⟨.pack, m, unread⟩) 6 = m.permille := by
  have hvolts := m.decivolts_lt
  have hpermille := m.permille_lt
  obtain ⟨hlow, hhigh⟩ := m.deciamps_range
  have hlt : (m.deciamps + 30000).toNat < 2 ^ 16 := by omega
  have hcast : (((m.deciamps + 30000).toNat : ℤ) : ℚ) = ((m.deciamps + 30000 : ℤ) : ℚ) := by
    rw [Int.toNat_of_nonneg (by omega)]
  push_cast at hcast
  refine ⟨(toNat_two_bytes m.decivolts).trans (Nat.mod_eq_of_lt hvolts), ?_,
    (toNat_two_bytes m.permille).trans (Nat.mod_eq_of_lt hpermille)⟩
  have hamps : be16 (Reply.frame c ⟨.pack, m, unread⟩) 4 = (m.deciamps + 30000).toNat :=
    (toNat_two_bytes _).trans (Nat.mod_eq_of_lt hlt)
  rw [hamps, hcast]
  ring

theorem be32_chargeState :
    be32 (Reply.frame c ⟨.chargeState, m, unread⟩) 4 = m.milliampHours := by
  have hlt := m.milliampHours_lt
  have hpayload : Reply.payload ⟨.chargeState, m, unread⟩ =
      [m.cdState, unread 1, unread 2, unread 3] ++
        (beBytes 2 (m.milliampHours / 65536) ++ beBytes 2 m.milliampHours) := by
    rw [← beBytes_four]
    rfl
  have hhigh : be16 (Reply.frame c ⟨.chargeState, m, unread⟩) 4 =
      m.milliampHours / 65536 % 2 ^ 16 := by
    rw [be16_frame, hpayload, ← toNat_two_bytes]
    rfl
  have hlow : be16 (Reply.frame c ⟨.chargeState, m, unread⟩) (4 + 2) =
      m.milliampHours % 2 ^ 16 := by
    rw [be16_frame, hpayload, ← toNat_two_bytes]
    rfl
  rw [be32, hhigh, hlow]
  omega

theorem reportsFault_faults :
    reportsFault (Reply.frame c ⟨.faults, m, unread⟩) = m.alarms.any fun alarm => alarm := by
  have hlength : (packBits m.alarms).length = 7 := by
    rw [packBits_length, m.alarms_length]
  have hbyte : ∀ i, i < 7 →
      (Reply.frame c ⟨.faults, m, unread⟩).byte i = (packBits m.alarms).getD i 0 := by
    intro i hi
    exact List.getD_append (packBits m.alarms) [unread 7] 0 i (by omega)
  rw [← any_packBits m.alarms_length, reportsFault]
  apply Bool.eq_iff_iff.mpr
  simp only [List.any_eq_true, List.mem_range, bne_iff_ne]
  apply exists_congr
  intro i
  apply and_congr_right
  intro hi
  rw [hbyte i hi]

end Replies

/-- A reply changes the members as its measurement changes the ledger. -/
theorem receive_frame (r : Reply) (now : Time) (l : Ledger) :
    receive now r.kind.id (r.frame c) l.mirror =
      Ledger.mirror (Function.update l r.kind (some (now, r.measured))) := by
  obtain ⟨kind, m, unread⟩ := r
  cases kind with
  | pack =>
      obtain ⟨hvolts, hamps, hpermille⟩ := be16_pack (c := c) m unread
      simp [receive, Kind.id, Ledger.mirror, Ledger.percent, Ledger.ampHours, hvolts, hamps,
        hpermille, Ledger.read_update_of_ne]
  | temperature =>
      have hmax : (((Reply.frame c ⟨.temperature, m, unread⟩).byte 0).toNat : ℚ) - 40 = m.maxTemp :=
        toNat_ofNat_offset m.maxTemp_range
      have hmin : (((Reply.frame c ⟨.temperature, m, unread⟩).byte 2).toNat : ℚ) - 40 = m.minTemp :=
        toNat_ofNat_offset m.minTemp_range
      have hid : idTemperature ≠ idPack := by decide
      simp [receive, Kind.id, hid, Ledger.mirror, Ledger.percent, Ledger.ampHours, hmax, hmin,
        Ledger.read_update_of_ne]
  | chargeState =>
      have hstate : (Reply.frame c ⟨.chargeState, m, unread⟩).byte 0 = m.cdState := rfl
      have hcapacity := be32_chargeState (c := c) m unread
      have hpack : idChargeState ≠ idPack := by decide
      have htemperature : idChargeState ≠ idTemperature := by decide
      simp [receive, Kind.id, hpack, htemperature, Ledger.mirror, Ledger.percent, Ledger.ampHours,
        hstate, hcapacity, Ledger.read_update_of_ne]
  | connections =>
      have hcells : (Reply.frame c ⟨.connections, m, unread⟩).byte 0 = m.numCells := rfl
      have htemps : (Reply.frame c ⟨.connections, m, unread⟩).byte 1 = m.numTemps := rfl
      have hcharger : (Reply.frame c ⟨.connections, m, unread⟩).byte 2 = m.charger := rfl
      have hload : (Reply.frame c ⟨.connections, m, unread⟩).byte 3 = m.load := rfl
      have hpack : idConnections ≠ idPack := by decide
      have htemperature : idConnections ≠ idTemperature := by decide
      have hstate : idConnections ≠ idChargeState := by decide
      simp [receive, Kind.id, hpack, htemperature, hstate, Ledger.mirror, Ledger.percent,
        Ledger.ampHours, hcells, htemps, hcharger, hload, Ledger.read_update_of_ne]
  | faults =>
      have hfault := reportsFault_faults (c := c) m unread
      have hpack : idFaults ≠ idPack := by decide
      have htemperature : idFaults ≠ idTemperature := by decide
      have hstate : idFaults ≠ idChargeState := by decide
      have hconnections : idFaults ≠ idConnections := by decide
      simp [receive, Kind.id, hpack, htemperature, hstate, hconnections, Ledger.mirror,
        Ledger.percent, Ledger.ampHours, hfault, Ledger.read_update_of_ne]

theorem isFresh_mirror (l : Ledger) (now : Time) :
    isFresh c now l.mirror = true ↔ l.Present c now := by
  unfold Ledger.Present
  cases hpack : l .pack with
  | none => simp [isFresh, Ledger.mirror, hpack]
  | some reading =>
      obtain ⟨rxTime, m⟩ := reading
      simp [isFresh, Ledger.mirror, hpack]

theorem percent_nonneg (l : Ledger) : 0 ≤ l.percent := by
  unfold Ledger.percent Ledger.read
  split
  · positivity
  · exact le_rfl

/-- The charge counts as full from 995 permille on. -/
theorem percent_ge_iff (l : Ledger) :
    199 / 2 ≤ l.percent ↔ 995 ≤ l.read .pack (fun m => m.permille) 0 := by
  unfold Ledger.percent Ledger.read
  split
  · rename_i m _
    rw [le_div_iff₀ (by norm_num)]
    norm_num
  · norm_num

theorem freshStatus_mirror (l : Ledger) : freshStatus l.mirror = l.status := by
  by_cases hfull : 199 / 2 ≤ l.percent
  · have hread := (percent_ge_iff l).mp hfull
    simp [freshStatus, Ledger.status, Ledger.Charges, Ledger.mirror, hfull, hread]
  · have hread := mt (percent_ge_iff l).mpr hfull
    simp [freshStatus, Ledger.status, Ledger.Charges, Ledger.mirror, hfull, hread]

theorem publishTimer_mirror (l : Ledger) (stamp now : Time) :
    publishTimer c stamp now l.mirror = l.display c stamp now := by
  have hpercentage : max 0 (min (l.percent / 100) 1) = min (l.percent / 100) 1 := by
    apply max_eq_right
    exact le_min (div_nonneg (percent_nonneg l) (by norm_num)) (by norm_num)
  have hfresh : isFresh c now l.mirror = decide (l.Present c now) := by
    rw [Bool.eq_iff_iff, isFresh_mirror, decide_eq_true_iff]
  unfold publishTimer Ledger.display
  simp only [hfresh, freshStatus_mirror, decide_eq_true_iff]
  rw [← hpercentage]
  rfl

/-- Every event keeps the members and the ledger together. -/
theorem busStep_mirror {b' : Bus} {e : BusEvent} (h : b.driver = l.mirror)
    (hstep : busStep c b e = some b') : b'.driver = (l.after b e).mirror := by
  cases e with
  | poll =>
      obtain rfl := Option.some.inj hstep
      exact h
  | answer i m unread =>
      obtain ⟨id, -, rfl⟩ := Option.map_eq_some_iff.mp hstep
      exact h
  | loseRequest i =>
      obtain rfl := Option.some.inj hstep
      exact h
  | deliver i now =>
      obtain ⟨r, hr, rfl⟩ := Option.map_eq_some_iff.mp hstep
      change canCallback c now (r.frame c) b.driver = _
      rw [canCallback, replyId_frame, h]
      simp only [Ledger.after, hr]
      exact receive_frame r now l
  | loseReply i =>
      obtain rfl := Option.some.inj hstep
      exact h
  | foreign now f =>
      simp only [busStep] at hstep
      split at hstep
      · rename_i hf
        obtain rfl := Option.some.inj hstep
        exact (canCallback_foreign hf now b.driver).trans h
      · cases hstep
  | publish stamp now =>
      obtain rfl := Option.some.inj hstep
      exact h

theorem busStep_shows {b' : Bus} {l' : Ledger} {e : BusEvent} (h : b.driver = l.mirror)
    (hstep : busStep c b e = some b') : Shows c (b, l) e (b', l') := by
  cases e with
  | publish stamp now =>
      change publishTimer c stamp now b.driver = _
      rw [h]
      exact publishTimer_mirror l stamp now
  | poll =>
      obtain rfl := Option.some.inj hstep
      change (b.requests ++ pollTimer c).filterMap (asked c) = _
      rw [List.filterMap_append, asked_pollTimer]
  | foreign now f =>
      simp only [busStep] at hstep
      split at hstep
      · rename_i hf
        obtain rfl := Option.some.inj hstep
        exact canCallback_foreign hf now b.driver
      · cases hstep
  | answer i m unread => trivial
  | loseRequest i => trivial
  | deliver i now => trivial
  | loseReply i => trivial

/-- Along every run of requests, measurements, losses, replies in any order and
frames of other nodes: each publication shows exactly the newest measurements
that have reached the driver, whatever the addresses, and each poll asks the
battery for every kind of data. -/
theorem shows_the_measurements (c : Config) (es : List BusEvent) :
    Along (recorded c) (Shows c) ({}, fun _ => none) es := by
  have keep : ∀ (w : Bus × Ledger) e w', w.1.driver = w.2.mirror → True →
      recorded c w e = some w' → w'.1.driver = w'.2.mirror := by
    rintro ⟨b, l⟩ e ⟨b', l'⟩ h - hstep
    obtain ⟨hb, rfl⟩ := observe_eq_some hstep
    exact busStep_mirror h hb
  have good : ∀ (w : Bus × Ledger) e w', w.1.driver = w.2.mirror → True →
      recorded c w e = some w' → Shows c w e w' := by
    rintro ⟨b, l⟩ e ⟨b', l'⟩ h - hstep
    exact busStep_shows h (observe_eq_some hstep).1
  exact along_of_invariant keep good rfl (along_of_forall (fun _ _ _ _ => trivial) _ es)

end PolishingRobot.Bms
