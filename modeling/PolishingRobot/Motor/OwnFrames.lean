import PolishingRobot.Motor.Drives
import Mathlib.Data.Nat.Bitwise

/-!
# Whose frames are taken

`can_callback` splits an identifier with two masks and keeps 16 bits of it. The
bits above them, and with them the flags of extended, remote and error frames,
are never looked at.
-/

namespace PolishingRobot.Motor

variable {nodes : List NodeId} {f : CanFrame} {now : Time} {d : Drives} {n : NodeId}

/-- The messages of a drive that the controller takes. -/
inductive Service where
  | tpdo1
  | tpdo2
  | tpdo3
  | bootUp
  deriving DecidableEq, Repr

namespace Service

/-- `TPDO1_ID_BASE` and its siblings. -/
def idBase : Service → Nat
  | tpdo1 => 0x180
  | tpdo2 => 0x280
  | tpdo3 => 0x380
  | bootUp => 0x700

/-- The frame is long enough for the structure that is decoded from it; a
boot-up message is one byte of zero. -/
def Complete (f : CanFrame) : Service → Prop
  | tpdo1 => 3 ≤ f.dlc
  | tpdo2 => 8 ≤ f.dlc
  | tpdo3 => 6 ≤ f.dlc
  | bootUp => f.dlc = 1 ∧ f.byte 0 = 0

instance (f : CanFrame) : (service : Service) → Decidable (service.Complete f)
  | tpdo1 => inferInstanceAs (Decidable (3 ≤ f.dlc))
  | tpdo2 => inferInstanceAs (Decidable (8 ≤ f.dlc))
  | tpdo3 => inferInstanceAs (Decidable (6 ≤ f.dlc))
  | bootUp => inferInstanceAs (Decidable (f.dlc = 1 ∧ f.byte 0 = 0))

/-- What the callback does with a complete message. -/
def receive (now : Time) (f : CanFrame) (d : Drives) : Service → Drives
  | tpdo1 => Function.update d f.node { d f.node with statusFlags := f.word16 0 }
  | tpdo2 => Function.update d f.node { d f.node with
      feedbackVelocity := (f.word32 0).toInt32
      feedbackPosition := (f.word32 4).toInt32
      lastFeedbackTime := now }
  | tpdo3 => Function.update d f.node { d f.node with
      voltage := f.word16 0
      currentA := (f.word16 2).toInt16
      errorCode := f.word16 4 }
  | bootUp => d.requestReinit f.node now

theorem idBase_mod (service : Service) : service.idBase % 128 = 0 := by
  cases service <;> rfl

theorem idBase_lt (service : Service) : service.idBase + 128 ≤ 65536 := by
  cases service <;> decide

end Service

/-- The frame is a complete message of the drive: its whole identifier, flags
included, is the base of the message plus the node. -/
def CanFrame.IsOf (f : CanFrame) (n : NodeId) : Prop :=
  ∃ service : Service, f.canId.toNat = service.idBase + n.toNat ∧ service.Complete f

/-- The low half of the identifier is one of a drive. -/
def CanFrame.ResemblesOneOf (f : CanFrame) (nodes : List NodeId) : Prop :=
  ∃ n ∈ nodes, n.toNat < 128 ∧
    ∃ service : Service, f.canId.toNat % 2 ^ 16 = service.idBase + n.toNat ∧ service.Complete f

theorem CanFrame.toNat_node (f : CanFrame) : f.node.toNat = f.canId.toNat % 128 := by
  have hmask : f.canId.toNat &&& 0x7F = f.canId.toNat % 128 :=
    Nat.and_two_pow_sub_one_eq_mod f.canId.toNat 7
  rw [CanFrame.node, UInt32.toNat_toUInt8, UInt32.toNat_and]
  change (f.canId.toNat &&& 127) % 256 = _
  omega

/-- The function code and the node make up the low half of the identifier. -/
theorem CanFrame.toNat_functionCode (f : CanFrame) :
    f.functionCode.toNat + f.node.toNat = f.canId.toNat % 2 ^ 16 := by
  have hdisjoint : (f.canId.toBitVec &&& 0xFF80#32) &&& (f.canId.toBitVec &&& 0x7F#32) = 0#32 := by
    calc (f.canId.toBitVec &&& 0xFF80#32) &&& (f.canId.toBitVec &&& 0x7F#32)
        = (f.canId.toBitVec &&& f.canId.toBitVec) &&& (0xFF80#32 &&& 0x7F#32) := by ac_rfl
      _ = 0#32 := by simp
  have hsum : (f.canId.toBitVec &&& 0xFF80#32) + (f.canId.toBitVec &&& 0x7F#32) =
      f.canId.toBitVec &&& 0xFFFF#32 := by
    rw [BitVec.add_eq_or_of_and_eq_zero _ _ hdisjoint, ← BitVec.and_or_distrib_left]
    rfl
  have h7 : f.canId.toNat &&& 0x7F = f.canId.toNat % 128 :=
    Nat.and_two_pow_sub_one_eq_mod f.canId.toNat 7
  have h16 : f.canId.toNat &&& 0xFFFF = f.canId.toNat % 65536 :=
    Nat.and_two_pow_sub_one_eq_mod f.canId.toNat 16
  have hle : f.canId.toNat &&& 65408 ≤ 65408 := Nat.and_le_right
  have hnat := congrArg BitVec.toNat hsum
  simp only [BitVec.toNat_add, BitVec.toNat_and, BitVec.toNat_ofNat, UInt32.toNat_toBitVec,
    Nat.reducePow, Nat.reduceMod, h7, h16] at hnat
  rw [CanFrame.functionCode, UInt32.toNat_toUInt16, UInt32.toNat_and, CanFrame.toNat_node]
  change (f.canId.toNat &&& 65408) % 65536 + _ = _
  omega

/-- The low half of the identifier spells the message of the node exactly if the
masks find the two. -/
theorem CanFrame.low_eq_iff (hn : n.toNat < 128) (service : Service) :
    f.canId.toNat % 2 ^ 16 = service.idBase + n.toNat ↔
      f.node = n ∧ f.functionCode.toNat = service.idBase := by
  have hnode := f.toNat_node
  have hcode := f.toNat_functionCode
  have hbase := service.idBase_mod
  rw [← UInt8.toNat_inj]
  constructor
  · intro h
    constructor <;> omega
  · rintro ⟨h, h'⟩
    omega

/-- A complete message of a configured node is received. -/
theorem canCallback_receives (hnode : f.node ∈ nodes) (service : Service)
    (hcode : f.functionCode.toNat = service.idBase) (hcomplete : service.Complete f) :
    canCallback nodes now f d = service.receive now f d := by
  have hcode' : f.functionCode = UInt16.ofNat service.idBase := by
    rw [← hcode, UInt16.ofNat_toNat]
  unfold canCallback
  rw [if_neg (not_not_intro hnode), hcode']
  cases service with
  | bootUp => exact if_pos hcomplete
  | tpdo1 => exact if_pos hcomplete
  | tpdo2 => exact if_pos hcomplete
  | tpdo3 => exact if_pos hcomplete

/-- Everything else changes nothing. -/
theorem canCallback_cases (nodes : List NodeId) (now : Time) (f : CanFrame) (d : Drives) :
    canCallback nodes now f d = d ∨
      f.node ∈ nodes ∧ ∃ service : Service, f.functionCode.toNat = service.idBase ∧
        service.Complete f ∧ canCallback nodes now f d = service.receive now f d := by
  by_cases hnode : f.node ∈ nodes
  · by_cases hservice : ∃ service : Service,
        f.functionCode.toNat = service.idBase ∧ service.Complete f
    · obtain ⟨service, hcode, hcomplete⟩ := hservice
      exact .inr ⟨hnode, service, hcode, hcomplete,
        canCallback_receives hnode service hcode hcomplete⟩
    · have hnone : ∀ service : Service, f.functionCode = UInt16.ofNat service.idBase →
          ¬ service.Complete f := by
        intro service hcode hcomplete
        refine hservice ⟨service, ?_, hcomplete⟩
        rw [hcode]
        cases service <;> rfl
      refine .inl ?_
      unfold canCallback
      rw [if_neg (not_not_intro hnode)]
      split_ifs with hboot hzero hstatus hthree hvelocity height herror hsix
      · exact absurd hzero (hnone .bootUp hboot)
      · rfl
      · exact absurd hthree (hnone .tpdo1 hstatus)
      · rfl
      · exact absurd height (hnone .tpdo2 hvelocity)
      · rfl
      · exact absurd hsix (hnone .tpdo3 herror)
      · rfl
      · rfl
  · exact .inl (if_pos hnode)

/-- A message changes the entry of its node alone. -/
theorem Service.receive_other (service : Service) (hn : n ≠ f.node) :
    service.receive now f d n = d n := by
  cases service with
  | bootUp =>
      rw [Service.receive, Drives.requestReinit]
      split
      · rfl
      · exact Function.update_of_ne hn _ _
  | tpdo1 => exact Function.update_of_ne hn _ _
  | tpdo2 => exact Function.update_of_ne hn _ _
  | tpdo3 => exact Function.update_of_ne hn _ _

/-- Every entry differs in some member from what the frame carries. -/
def differing (f : CanFrame) : Drives := fun _ =>
  { statusFlags := f.word16 0 + 1, errorCode := f.word16 4 + 1, lastFeedbackTime := -1 }

/-- There a message changes something. -/
theorem Service.receive_differing (service : Service) (f : CanFrame) :
    service.receive 0 f (differing f) f.node ≠ differing f f.node := by
  intro h
  cases service with
  | tpdo1 =>
      have hflags := congrArg MotorState.statusFlags h
      simp [Service.receive, differing] at hflags
  | tpdo2 =>
      have htime := congrArg MotorState.lastFeedbackTime h
      simp [Service.receive, differing] at htime
  | tpdo3 =>
      have hcode := congrArg MotorState.errorCode h
      simp [Service.receive, differing] at hcode
  | bootUp =>
      have hpending := congrArg MotorState.needsReinit h
      simp [Service.receive, Drives.requestReinit, differing] at hpending

/-- The frame changes a drive's entry only if it is a complete message of a
configured node with that number. -/
def ChangesOnlyItsOwn (nodes : List NodeId) (f : CanFrame) : Prop :=
  ∀ now d n, canCallback nodes now f d n ≠ d n → n ∈ nodes ∧ f.IsOf n

/-- A frame changes only the drive whose message it is exactly if its
identifier, flags included, has no high bits, or its low half is none of a
configured drive. -/
theorem only_own_frames_iff (nodes : List NodeId) (f : CanFrame) :
    ChangesOnlyItsOwn nodes f ↔ (f.ResemblesOneOf nodes → f.canId.toNat < 2 ^ 16) := by
  constructor
  · rintro hown ⟨n, hn, hlt, service, hlow, hcomplete⟩
    obtain ⟨rfl, hcode⟩ := (CanFrame.low_eq_iff hlt service).mp hlow
    have hchange : canCallback nodes 0 f (differing f) f.node ≠ differing f f.node := by
      rw [canCallback_receives hn service hcode hcomplete]
      exact service.receive_differing f
    obtain ⟨-, service', hid, -⟩ := hown 0 (differing f) f.node hchange
    have hbase := service'.idBase_lt
    omega
  · intro hlow now d n hchange
    rcases canCallback_cases nodes now f d with hsame | ⟨hnode, service, hcode, hcomplete, hreceive⟩
    · exact absurd (congrFun hsame n) hchange
    · have hn : n = f.node := by
        by_contra hother
        rw [hreceive] at hchange
        exact hchange (service.receive_other hother)
      subst hn
      have hlt : f.node.toNat < 128 := by
        rw [f.toNat_node]
        omega
      have hid := (CanFrame.low_eq_iff hlt service).mpr ⟨rfl, hcode⟩
      have hhigh := hlow ⟨f.node, hnode, hlt, service, hid, hcomplete⟩
      refine ⟨hnode, service, ?_, hcomplete⟩
      omega

/-- An extended frame whose low bits are the boot-up identifier of drive 1. -/
def extendedBootUp : CanFrame := ⟨0x80000701, 1, List.replicate 8 0, by decide, rfl⟩

/-- It schedules the reinitialisation of the drive. -/
theorem extended_frame_taken :
    (canCallback [1] 100 extendedBootUp (fun _ => {}) 1).needsReinit = true ∧
      ¬ ChangesOnlyItsOwn [1] extendedBootUp := by
  have hpending : (canCallback [1] 100 extendedBootUp (fun _ => {}) 1).needsReinit = true := by
    decide +kernel
  refine ⟨hpending, ?_⟩
  intro hown
  have hchange : canCallback [1] 100 extendedBootUp (fun _ => {}) 1 ≠ ({} : MotorState) := by
    intro hsame
    rw [hsame] at hpending
    cases hpending
  obtain ⟨-, service, hid, -⟩ := hown 100 (fun _ => {}) 1 hchange
  cases service <;> exact absurd hid (by decide)

end PolishingRobot.Motor
