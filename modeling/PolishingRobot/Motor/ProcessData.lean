import PolishingRobot.Motor.Drives
import PolishingRobot.Wire.Packing

/-!
# Process data

The layout of a process data object is given twice: as the objects that
`configure_node` maps into it, and as the packed structure that the controller
copies in or out. Structure and mapping agree but for TPDO3, whose second error
word has no member.
-/

namespace PolishingRobot.Motor

open Wire

structure RPDO1Data where
  controlword : UInt16
  modesOfOperation : Int8

structure RPDO2VelData where
  targetVelocity : Int32

structure TPDO1Data where
  statusword : UInt16
  modeOfOperationDisplay : Int8

structure TPDO2Data where
  velocityActual : Int32
  positionActual : Int32

structure TPDO3Data where
  dcLinkVoltage : UInt16
  currentActual : Int16
  errorCode : UInt16

/-- The bytes that `change_motor_state` hands to `write`. -/
def RPDO1Data.bytes (d : RPDO1Data) : List UInt8 :=
  [d.controlword.toUInt8, (d.controlword >>> 8).toUInt8, d.modesOfOperation.toUInt8]

/-- The bytes that `send_velocity_command` hands to `write`. -/
def RPDO2VelData.bytes (d : RPDO2VelData) : List UInt8 := bytes32 d.targetVelocity.toUInt32

def TPDO1Data.ofFrame (f : CanFrame) : TPDO1Data := ⟨f.word16 0, (f.byte 2).toInt8⟩

def TPDO2Data.ofFrame (f : CanFrame) : TPDO2Data := ⟨(f.word32 0).toInt32, (f.word32 4).toInt32⟩

def TPDO3Data.ofFrame (f : CanFrame) : TPDO3Data :=
  ⟨f.word16 0, (f.word16 2).toInt16, f.word16 4⟩

/-- The members as raw numbers, in their order. -/
def TPDO1Data.members (d : TPDO1Data) : List Nat :=
  [d.statusword.toNat, d.modeOfOperationDisplay.toUInt8.toNat]

def TPDO2Data.members (d : TPDO2Data) : List Nat :=
  [d.velocityActual.toUInt32.toNat, d.positionActual.toUInt32.toNat]

def TPDO3Data.members (d : TPDO3Data) : List Nat :=
  [d.dcLinkVoltage.toNat, d.currentActual.toUInt16.toNat, d.errorCode.toNat]

section Callback

variable {nodes : List NodeId} {f : CanFrame}

/-- `can_callback` stores members of the structures. -/
theorem canCallback_tpdo1 (hnode : f.node ∈ nodes) (hcode : f.functionCode = 0x180)
    (hdlc : 3 ≤ f.dlc) (now : Time) (d : Drives) :
    canCallback nodes now f d = Function.update d f.node { d f.node with
      statusFlags := (TPDO1Data.ofFrame f).statusword } := by
  simp [canCallback, hnode, hcode, hdlc, TPDO1Data.ofFrame]

theorem canCallback_tpdo2 (hnode : f.node ∈ nodes) (hcode : f.functionCode = 0x280)
    (hdlc : 8 ≤ f.dlc) (now : Time) (d : Drives) :
    canCallback nodes now f d = Function.update d f.node { d f.node with
      feedbackVelocity := (TPDO2Data.ofFrame f).velocityActual
      feedbackPosition := (TPDO2Data.ofFrame f).positionActual
      lastFeedbackTime := now } := by
  simp [canCallback, hnode, hcode, hdlc, TPDO2Data.ofFrame]

theorem canCallback_tpdo3 (hnode : f.node ∈ nodes) (hcode : f.functionCode = 0x380)
    (hdlc : 6 ≤ f.dlc) (now : Time) (d : Drives) :
    canCallback nodes now f d = Function.update d f.node { d f.node with
      voltage := (TPDO3Data.ofFrame f).dcLinkVoltage
      currentA := (TPDO3Data.ofFrame f).currentActual
      errorCode := (TPDO3Data.ofFrame f).errorCode } := by
  simp [canCallback, hnode, hcode, hdlc, TPDO3Data.ofFrame]

end Callback

inductive Pdo where
  | rpdo1
  | rpdo2
  | tpdo1
  | tpdo2
  | tpdo3
  deriving DecidableEq, Repr

/-- The two error words of a drive. -/
def errorWord1 : UInt32 := 0x26010010
def errorWord2 : UInt32 := 0x26020010

namespace Pdo

def idBase : Pdo → UInt16
  | rpdo1 => 0x200
  | rpdo2 => 0x300
  | tpdo1 => 0x180
  | tpdo2 => 0x280
  | tpdo3 => 0x380

/-- The objects, each as index, subindex and bit length. -/
def mappedObjects : Pdo → List UInt32
  | rpdo1 => [0x60400010, 0x60600008]
  | rpdo2 => [0x60FF0020]
  | tpdo1 => [0x60410010, 0x60610008]
  | tpdo2 => [0x606C0020, 0x60640020]
  | tpdo3 => [0x60790010, 0x60780010, errorWord1, errorWord2]

/-- The widths of the members of the structure. -/
def memberWidths : Pdo → List Nat
  | rpdo1 => [16, 8]
  | rpdo2 => [32]
  | tpdo1 => [16, 8]
  | tpdo2 => [32, 32]
  | tpdo3 => [16, 16, 16]

end Pdo

theorem pdoMappings_eq (node : NodeId) :
    pdoMappings node =
      setupPdoMapping node 0x1400 0x1600 Pdo.rpdo1.idBase.toUInt32 Pdo.rpdo1.mappedObjects ++
      setupPdoMapping node 0x1401 0x1601 Pdo.rpdo2.idBase.toUInt32 Pdo.rpdo2.mappedObjects ++
      setupPdoMapping node 0x1800 0x1A00 Pdo.tpdo1.idBase.toUInt32 Pdo.tpdo1.mappedObjects ++
      setupPdoMapping node 0x1801 0x1A01 Pdo.tpdo2.idBase.toUInt32 Pdo.tpdo2.mappedObjects ++
      setupPdoMapping node 0x1802 0x1A02 Pdo.tpdo3.idBase.toUInt32 Pdo.tpdo3.mappedObjects :=
  rfl

def bitLength (entry : UInt32) : Nat := (entry &&& 0xFF).toNat

/-- The raw values of the mapped objects of a drive. -/
structure ObjectValues where
  value : UInt32 → Nat
  fits : ∀ entry, value entry < 2 ^ bitLength entry

variable (o : ObjectValues) (pdo : Pdo) (f : CanFrame)

/-- The mapped objects with their lengths. -/
def ObjectValues.fields : List (Nat × Nat) :=
  pdo.mappedObjects.map fun entry => (bitLength entry, o.value entry)

/-- The bytes of the sender: the controller fills a structure, the drive packs
the objects in the order of the mapping. -/
def ObjectValues.payload : Pdo → List UInt8
  | .rpdo1 => RPDO1Data.bytes
      ⟨UInt16.ofNat (o.value 0x60400010), (UInt8.ofNat (o.value 0x60600008)).toInt8⟩
  | .rpdo2 => RPDO2VelData.bytes ⟨(UInt32.ofNat (o.value 0x60FF0020)).toInt32⟩
  | pdo => leBytes ((pdo.mappedObjects.map bitLength).sum / 8) (pack (o.fields pdo))

/-- What the receiver reads: the drive by the mapping, the controller by the structure. -/
def CanFrame.readBack : Pdo → List Nat
  | .tpdo1 => (TPDO1Data.ofFrame f).members
  | .tpdo2 => (TPDO2Data.ofFrame f).members
  | .tpdo3 => (TPDO3Data.ofFrame f).members
  | pdo => unpack (pdo.mappedObjects.map bitLength) (leNat f.data)

/-- The frame carries the objects. -/
def Carries : Prop :=
  f.functionCode = pdo.idBase ∧ f.dlc = (o.payload pdo).length ∧ o.payload pdo <+: f.data

instance : Decidable (Carries o pdo f) := inferInstanceAs (Decidable (_ ∧ _ ∧ _))

/-- The receiver of the frame has the object's value in the object's place. -/
def Recovered (entry : UInt32) : Prop :=
  (f.readBack pdo)[pdo.mappedObjects.idxOf entry]? = some (o.value entry)

theorem CanFrame.toNat_byte {i : Nat} (h : i < 8) :
    (f.byte i).toNat = leNat f.data / 256 ^ i % 2 ^ 8 := by
  have hlength : i + 1 ≤ f.data.length := by
    rw [f.data_length]
    exact h
  have hwindow := leNat_window hlength
  simpa [leNat, CanFrame.byte] using hwindow

theorem CanFrame.toNat_word16 {i : Nat} (h : i + 2 ≤ 8) :
    (f.word16 i).toNat = leNat f.data / 256 ^ i % 2 ^ 16 := by
  have hwindow := leNat_window (f.data_length ▸ h)
  rw [CanFrame.word16, toNat_join16]
  exact hwindow

theorem CanFrame.toNat_word32 {i : Nat} (h : i + 4 ≤ 8) :
    (f.word32 i).toNat = leNat f.data / 256 ^ i % 2 ^ 32 := by
  have hwindow := leNat_window (f.data_length ▸ h)
  rw [CanFrame.word32, toNat_join32]
  exact hwindow

/-- The receiver reads the widths of the structure off the frame. -/
theorem CanFrame.readBack_eq : f.readBack pdo = unpack pdo.memberWidths (leNat f.data) := by
  cases pdo with
  | rpdo1 => rfl
  | rpdo2 => rfl
  | tpdo1 =>
      simp [readBack, TPDO1Data.ofFrame, TPDO1Data.members, Pdo.memberWidths, unpack,
        f.toNat_word16, f.toNat_byte]
  | tpdo2 =>
      simp [readBack, TPDO2Data.ofFrame, TPDO2Data.members, Pdo.memberWidths, unpack,
        f.toNat_word32]
  | tpdo3 =>
      simp [readBack, TPDO3Data.ofFrame, TPDO3Data.members, Pdo.memberWidths, unpack,
        f.toNat_word16, Nat.div_div_eq_div_mul]

theorem ObjectValues.fits_fields : Fits (o.fields pdo) := by
  intro field hfield
  obtain ⟨entry, -, rfl⟩ := List.mem_map.mp hfield
  exact o.fits entry

theorem ObjectValues.widths_fields :
    (o.fields pdo).map Prod.fst = pdo.mappedObjects.map bitLength := by
  rw [ObjectValues.fields, List.map_map]
  rfl

theorem ObjectValues.values_fields :
    (o.fields pdo).map Prod.snd = pdo.mappedObjects.map o.value := by
  rw [ObjectValues.fields, List.map_map]
  rfl

/-- The structure has a member for each of the first objects. -/
theorem Pdo.memberWidths_prefix : pdo.memberWidths <+: pdo.mappedObjects.map bitLength := by
  cases pdo <;> decide

theorem toUInt8_eq {x : Nat} (b : UInt8) (h : b.toNat = x % 256) : b = UInt8.ofNat x :=
  UInt8.toNat_inj.mp (h.trans UInt8.toNat_ofNat'.symm)

theorem bytes16_eq (v : UInt16) : [v.toUInt8, (v >>> 8).toUInt8] = leBytes 2 v.toNat := by
  have hlow : v.toUInt8 = UInt8.ofNat v.toNat := toUInt8_eq _ (by simp)
  have hhigh : (v >>> 8).toUInt8 = UInt8.ofNat (v.toNat / 256) :=
    toUInt8_eq _ (by simp [Nat.shiftRight_eq_div_pow])
  rw [hlow, hhigh]
  rfl

theorem bytes32_eq (v : UInt32) : bytes32 v = leBytes 4 v.toNat := by
  have h0 : v.toUInt8 = UInt8.ofNat v.toNat := toUInt8_eq _ (by simp)
  have h1 : (v >>> 8).toUInt8 = UInt8.ofNat (v.toNat / 256) :=
    toUInt8_eq _ (by simp [Nat.shiftRight_eq_div_pow])
  have h2 : (v >>> 16).toUInt8 = UInt8.ofNat (v.toNat / 256 / 256) :=
    toUInt8_eq _ (by simp [Nat.shiftRight_eq_div_pow, Nat.div_div_eq_div_mul])
  have h3 : (v >>> 24).toUInt8 = UInt8.ofNat (v.toNat / 256 / 256 / 256) :=
    toUInt8_eq _ (by simp [Nat.shiftRight_eq_div_pow, Nat.div_div_eq_div_mul])
  rw [bytes32, h0, h1, h2, h3]
  rfl

/-- The sender's bytes are the packed objects. -/
theorem ObjectValues.leNat_payload : leNat (o.payload pdo) = pack (o.fields pdo) := by
  have hlt := pack_lt (o.fits_fields pdo)
  have hdrive : leNat (leBytes ((pdo.mappedObjects.map bitLength).sum / 8) (pack (o.fields pdo))) =
      pack (o.fields pdo) := by
    rw [leNat_leBytes]
    apply Nat.mod_eq_of_lt
    rw [o.widths_fields] at hlt
    cases pdo <;> exact hlt
  cases pdo with
  | rpdo1 =>
      have hword : o.value 0x60400010 < 2 ^ 16 := o.fits 0x60400010
      have hmode : o.value 0x60600008 < 2 ^ 8 := o.fits 0x60600008
      have hwordBytes := congrArg leNat (bytes16_eq (UInt16.ofNat (o.value 0x60400010)))
      rw [leNat_leBytes, UInt16.toNat_ofNat', Nat.mod_eq_of_lt hword,
        Nat.mod_eq_of_lt (show _ < 256 ^ 2 from hword)] at hwordBytes
      have hmodeByte : leNat [(UInt8.ofNat (o.value 0x60600008)).toInt8.toUInt8] =
          o.value 0x60600008 := by
        simp only [leNat, UInt8.toUInt8_toInt8, UInt8.toNat_ofNat', Nat.mod_eq_of_lt hmode]
        omega
      calc leNat (o.payload .rpdo1)
          = o.value 0x60400010 + 256 ^ 2 * o.value 0x60600008 := by
            rw [← hmodeByte, ← hwordBytes]
            exact leNat_append [_, _] [_]
        _ = pack (o.fields .rpdo1) := rfl
  | rpdo2 =>
      have htarget : o.value 0x60FF0020 < 2 ^ 32 := o.fits 0x60FF0020
      have htargetBytes := congrArg leNat (bytes32_eq (UInt32.ofNat (o.value 0x60FF0020)))
      rw [leNat_leBytes, UInt32.toNat_ofNat', Nat.mod_eq_of_lt htarget,
        Nat.mod_eq_of_lt (show _ < 256 ^ 4 from htarget)] at htargetBytes
      calc leNat (o.payload .rpdo2)
          = leNat (bytes32 (UInt32.ofNat (o.value 0x60FF0020))) := by
            simp [ObjectValues.payload, RPDO2VelData.bytes]
        _ = pack (o.fields .rpdo2) := htargetBytes
  | tpdo1 => exact hdrive
  | tpdo2 => exact hdrive
  | tpdo3 => exact hdrive

theorem ObjectValues.length_payload :
    8 * (o.payload pdo).length = (pdo.mappedObjects.map bitLength).sum := by
  cases pdo <;> simp only [ObjectValues.payload, RPDO1Data.bytes, RPDO2VelData.bytes, bytes32,
    leBytes_length, List.length_cons, List.length_nil] <;> decide

variable {o pdo f}

/-- The receiver has the first objects, as many as the structure has members. -/
theorem Carries.readBack_eq (h : Carries o pdo f) :
    f.readBack pdo = (pdo.mappedObjects.map o.value).take pdo.memberWidths.length := by
  obtain ⟨-, -, rest, hdata⟩ := h
  have hpow : 256 ^ (o.payload pdo).length = 2 ^ ((o.fields pdo).map Prod.fst).sum := by
    rw [o.widths_fields, ← o.length_payload, pow_mul]
    norm_num
  have hprefix : pdo.memberWidths <+: (o.fields pdo).map Prod.fst := by
    rw [o.widths_fields]
    exact pdo.memberWidths_prefix
  rw [f.readBack_eq, ← hdata, leNat_append, o.leNat_payload, hpow,
    unpack_prefix (o.fits_fields pdo) hprefix, o.values_fields]

/-- The objects with a member, and only they, are recovered. -/
theorem Carries.recovered_iff_idxOf (h : Carries o pdo f) {entry : UInt32}
    (hentry : entry ∈ pdo.mappedObjects) :
    Recovered o pdo f entry ↔ pdo.mappedObjects.idxOf entry < pdo.memberWidths.length := by
  have hvalue : (pdo.mappedObjects.map o.value)[pdo.mappedObjects.idxOf entry]? =
      some (o.value entry) := by
    rw [List.getElem?_map, List.getElem?_idxOf hentry]
    rfl
  rw [Recovered, h.readBack_eq, List.getElem?_take]
  constructor
  · intro hgot
    by_contra hout
    rw [if_neg hout] at hgot
    cases hgot
  · intro hin
    rw [if_pos hin, hvalue]

/-- Only the second error word has no member. -/
theorem Pdo.idxOf_lt_iff (pdo : Pdo) : ∀ entry ∈ pdo.mappedObjects,
    (pdo.mappedObjects.idxOf entry < pdo.memberWidths.length ↔ entry ≠ errorWord2) := by
  have hall : pdo.mappedObjects.all (fun entry => decide
      (pdo.mappedObjects.idxOf entry < pdo.memberWidths.length ↔ entry ≠ errorWord2)) = true := by
    cases pdo <;> decide
  intro entry hentry
  exact of_decide_eq_true (List.all_eq_true.mp hall entry hentry)

/-- The alarm after a TPDO3 is raised by the first error word alone. -/
theorem Carries.alarm_isSome_iff (h : Carries o .tpdo3 f) {nodes : List NodeId}
    (hnode : f.node ∈ nodes) (now : Time) (d : Drives) :
    ((canCallback nodes now f d).alarm f.node).isSome ↔ o.value errorWord1 ≠ 0 := by
  have hread : (TPDO3Data.ofFrame f).members =
      [o.value 0x60790010, o.value 0x60780010, o.value errorWord1] := h.readBack_eq
  have hword : (TPDO3Data.ofFrame f).errorCode.toNat = o.value errorWord1 := by
    simp only [TPDO3Data.members, List.cons.injEq] at hread
    exact hread.2.2.1
  have hdlc : 6 ≤ f.dlc := by
    have hlength := o.length_payload .tpdo3
    have hbits : (Pdo.tpdo3.mappedObjects.map bitLength).sum = 64 := by decide
    have := h.2.1
    omega
  rw [canCallback_tpdo3 hnode h.1 hdlc, Drives.alarm, Function.update_self]
  constructor
  · intro halarm hzero
    have hcode : (TPDO3Data.ofFrame f).errorCode = 0 := UInt16.toNat_inj.mp (hword.trans hzero)
    rw [if_pos hcode] at halarm
    cases halarm
  · intro hne
    have hcode : (TPDO3Data.ofFrame f).errorCode ≠ 0 := by
      intro hzero
      rw [hzero] at hword
      exact hne hword.symm
    rw [if_neg hcode]
    rfl

/-- Every mapped object is recovered but the second error word, and an error is
reported unless it stands in the second error word alone. -/
theorem pdo_agreement (o : ObjectValues) (pdo : Pdo) (f : CanFrame) (h : Carries o pdo f)
    (nodes : List NodeId) (hnode : f.node ∈ nodes) (now : Time) (d : Drives) :
    (∀ entry ∈ pdo.mappedObjects, (Recovered o pdo f entry ↔ entry ≠ errorWord2)) ∧
      (pdo = .tpdo3 →
        ((o.value errorWord1 ≠ 0 ∨ o.value errorWord2 ≠ 0 →
            ((canCallback nodes now f d).alarm f.node).isSome) ↔
          (o.value errorWord1 ≠ 0 ∨ o.value errorWord2 = 0))) := by
  constructor
  · intro entry hentry
    exact (h.recovered_iff_idxOf hentry).trans (pdo.idxOf_lt_iff entry hentry)
  · rintro rfl
    rw [h.alarm_isSome_iff hnode now d]
    tauto

/-- A drive whose only error is in its second error word. -/
def secondErrorOnly : ObjectValues where
  value entry := if entry = errorWord2 then 1 else 0
  fits entry := by
    split
    · subst entry
      decide
    · exact Nat.two_pow_pos _

/-- A frame that uses all its bytes. -/
def fullFrame (canId : UInt32) (data : List UInt8) (h : data.length = 8) : CanFrame :=
  ⟨canId, data.length, data, h.le, h⟩

/-- Its TPDO3, as drive 1. -/
def secondErrorFrame : CanFrame := fullFrame 0x381 [0, 0, 0, 0, 0, 0, 1, 0] rfl

theorem pdo_agreement_secondError :
    (∀ entry ∈ Pdo.tpdo3.mappedObjects,
      (Recovered secondErrorOnly .tpdo3 secondErrorFrame entry ↔ entry ≠ errorWord2)) ∧
      (Pdo.tpdo3 = .tpdo3 →
        ((secondErrorOnly.value errorWord1 ≠ 0 ∨ secondErrorOnly.value errorWord2 ≠ 0 →
            ((canCallback [1] 0 secondErrorFrame fun _ => {}).alarm secondErrorFrame.node).isSome) ↔
          (secondErrorOnly.value errorWord1 ≠ 0 ∨ secondErrorOnly.value errorWord2 = 0))) :=
  pdo_agreement secondErrorOnly .tpdo3 secondErrorFrame (by decide) [1] (by decide) 0 fun _ => {}

/-- The second error word is lost, and no alarm tells of it. -/
theorem second_error_unreported :
    ¬ ∀ (o : ObjectValues) (pdo : Pdo) (f : CanFrame), Carries o pdo f →
      ∀ nodes : List NodeId, f.node ∈ nodes → ∀ (now : Time) (d : Drives),
        (∀ entry ∈ pdo.mappedObjects, Recovered o pdo f entry) ∧
          (pdo = .tpdo3 → o.value errorWord1 ≠ 0 ∨ o.value errorWord2 ≠ 0 →
            ((canCallback nodes now f d).alarm f.node).isSome) := by
  intro hclaim
  have hcarries : Carries secondErrorOnly .tpdo3 secondErrorFrame := by decide
  have halarm := (hclaim secondErrorOnly .tpdo3 secondErrorFrame hcarries [1] (by decide) 0
    fun _ => {}).2 rfl (.inr (by decide))
  revert halarm
  decide

end PolishingRobot.Motor
