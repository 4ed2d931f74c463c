import PolishingRobot.Motor.ProcessData
import PolishingRobot.Motor.Reconfiguration
import PolishingRobot.Wire.PdoParameters

/-!
# What configures the drives

A drive takes the frames that are addressed to it. It boots at power-on and at a
reset of its communication, and is operational once it is started. It knows the
five process data objects by their parameters in its object dictionary, which
`configure_node` writes while the other threads go on.
-/

namespace PolishingRobot.Motor

open Runs Wire

structure Download where
  specifier : UInt8
  index : UInt16
  subIndex : UInt8
  data : UInt32

def Download.ofBytes : List UInt8 → Option Download
  | [specifier, low, high, subIndex, b0, b1, b2, b3] =>
      some ⟨specifier, low.toUInt16 ||| high.toUInt16 <<< 8, subIndex,
        b0.toUInt32 ||| b1.toUInt32 <<< 8 ||| b2.toUInt32 <<< 16 ||| b3.toUInt32 <<< 24⟩
  | _ => none

namespace Pdo

/-- The indices of the communication and of the mapping parameters. -/
def commIndex : Pdo → UInt16
  | rpdo1 => 0x1400
  | rpdo2 => 0x1401
  | tpdo1 => 0x1800
  | tpdo2 => 0x1801
  | tpdo3 => 0x1802

def mapIndex : Pdo → UInt16
  | rpdo1 => 0x1600
  | rpdo2 => 0x1601
  | tpdo1 => 0x1A00
  | tpdo2 => 0x1A01
  | tpdo3 => 0x1A02

end Pdo

/-- The parameter of the object that a download writes. -/
def Download.pdoWrite (pdo : Pdo) (d : Download) : Option (PdoWrite UInt32 UInt32) :=
  if d.index = pdo.commIndex then
    if d.specifier = 0x23 ∧ d.subIndex = 1 then some (.cobId d.data)
    else if d.specifier = 0x2F ∧ d.subIndex = 2 then some (.transmissionType d.data.toUInt8)
    else none
  else if d.index = pdo.mapIndex then
    if d.specifier = 0x2F ∧ d.subIndex = 0 then some (.count d.data.toUInt8.toNat)
    else if d.specifier = 0x23 then some (.entry d.subIndex.toNat d.data)
    else none
  else none

def pdoWrite (pdo : Pdo) (payload : List UInt8) : Option (PdoWrite UInt32 UInt32) :=
  (Download.ofBytes payload).bind (Download.pdoWrite pdo)

abbrev PdoTable := Pdo → PdoParameters UInt32 UInt32

/-- The rules for a drive: bit 31 of a COB-ID marks a PDO that is not valid. -/
def pdoRules (mappable : UInt32 → Bool) : PdoRules UInt32 UInt32 where
  valid cobId := !cobId.toNat.testBit 31
  mappable := mappable
  bits := bitLength
  maxObjects := 8
  maxBits := 64

/-- The drives as the controller relies on them: they map the objects, and boot
and answer in the time of its sleeps. -/
structure DriveModel where
  mappable : UInt32 → Bool
  bootTime : Time
  sdoTime : Time
  maps : ∀ pdo : Pdo, ∀ object ∈ pdo.mappedObjects, mappable object = true
  boots : bootTime ≤ 1 / 2
  answers : sdoTime ≤ 1 / 50

def DriveModel.download (m : DriveModel) (table : PdoTable) (payload : List UInt8) : PdoTable :=
  fun pdo =>
    match pdoWrite pdo payload with
    | some x => (table pdo).accept (pdoRules m.mappable) x
    | none => table pdo

/-- How a drive has last come up: before the run, by its power, or at a reset of
its communication. -/
inductive Boot where
  | before
  | power
  | reset
  deriving DecidableEq, Repr

/-- `stored` are the parameters that a drive boots with. -/
structure Drive where
  boot : Boot
  operational : Bool
  busyUntil : Time
  stored : PdoTable
  pdos : PdoTable

def Drive.restart (m : DriveModel) (now : Time) (boot : Boot) (d : Drive) : Drive :=
  { d with
    boot := boot, operational := false, busyUntil := now + m.bootTime, pdos := d.stored }

/-- What a frame does to the drive of a node. -/
def Drive.receive (m : DriveModel) (now : Time) (n : NodeId) (d : Drive) : CanMessage → Drive
  | .nmt command node =>
      if node ≠ n ∧ node ≠ 0 then d
      else if command = nmtResetCommunication then d.restart m now .reset
      else if command = nmtStartRemoteNode ∧ d.busyUntil ≤ now then { d with operational := true }
      else d
  | .sdo node payload =>
      if node = n ∧ d.busyUntil ≤ now then
        { d with busyUntil := now + m.sdoTime, pdos := m.download d.pdos payload }
      else d
  | _ => d

structure Bus where
  node : State
  drives : NodeId → Drive

inductive BusLabel where
  /-- A step of the node; a frame that it writes may be lost. -/
  | node (l : Label) (lost : Bool)
  /-- A drive loses its power and comes up with what it has stored. -/
  | powerCycle (n : NodeId) (stored : PdoTable)

/-- The drives after a step of the node. -/
def drivesAfter (m : DriveModel) (c : Config) (s : State) (l : Label) (lost : Bool)
    (drives : NodeId → Drive) : NodeId → Drive := fun n =>
  match actionOf c s l with
  | some (.write message) =>
      if c.canOpen && !lost then (drives n).receive m s.shared.now n message else drives n
  | _ => drives n

def busStep (m : DriveModel) (c : Config) (w : Bus) : BusLabel → Option Bus
  | .node l lost =>
      (step c w.node l).map fun s => ⟨s, drivesAfter m c w.node l lost w.drives⟩
  | .powerCycle n stored =>
      let drive := { w.drives n with stored := stored }.restart m w.node.shared.now .power
      some { w with drives := Function.update w.drives n drive }

/-- The node that a thread configures, and how far it is. -/
def Body.configuring : Body → Option (NodeId × ConfigureNode)
  | .main (.configuring node _ pc) => some (node, pc)
  | .recovery (.resetting (.configure node _ pc)) => some (node, pc)
  | _ => none

/-- Some thread configures the node. -/
def State.Configures (s : State) (n : NodeId) : Prop :=
  ∃ u ∈ s.threads, u.body.configuring.map Prod.fst = some n

instance (s : State) (n : NodeId) : Decidable (s.Configures n) :=
  inferInstanceAs (Decidable (∃ u ∈ s.threads, _))

/-- While a drive is configured its power stays on and no frame to it is lost. -/
def Undisturbed (w : Bus) : BusLabel → Prop
  | .node l lost => lost = true → ∀ b ∈ w.node.mover l, b.configuring = none
  | .powerCycle n _ => ¬ w.node.Configures n

instance (w : Bus) : (l : BusLabel) → Decidable (Undisturbed w l)
  | .node l lost => inferInstanceAs (Decidable (lost = true → ∀ b ∈ w.node.mover l, _))
  | .powerCycle n _ => inferInstanceAs (Decidable (¬ w.node.Configures n))

/-- The PDOs of the drive are those of `configure_node`, valid and synchronous. -/
def Mapped (n : NodeId) (table : PdoTable) : Prop :=
  ∀ pdo : Pdo, (table pdo).cobId = pdo.idBase.toUInt32 + n.toUInt32 ∧
    (table pdo).transmissionType = 1 ∧ (table pdo).mapped = pdo.mappedObjects

/-- A drive that has come up in the run is operational with the PDOs of
`configure_node` alone; one that a thread has reset is operational, or the thread
is not done with it. -/
structure Communicates (w : Bus) : Prop where
  mapped : ∀ n, (w.drives n).boot ≠ .before → (w.drives n).operational = true →
    Mapped n (w.drives n).pdos
  operational : ∀ n, (w.drives n).boot = .reset →
    (w.drives n).operational = true ∨ w.node.Configures n

variable {m : DriveModel} {c : Config} {σ : Shared} {s s' : State} {now : Time} {task : Nat}
  {turn : Turn} {l : Label} {b : Body} {n : NodeId} {pdo : Pdo}

theorem ofBytes_sdoDownload (specifier : UInt8) (index : UInt16) (subIndex : UInt8)
    (data : UInt32) : Download.ofBytes (sdoDownload specifier index subIndex data) =
      some ⟨specifier, index, subIndex, data⟩ := by
  have hindex : index.toUInt8.toUInt16 ||| (index >>> 8).toUInt8.toUInt16 <<< 8 = index := by
    apply UInt16.toNat_inj.mp
    rw [toNat_join16, bytes16_eq, leNat_leBytes]
    exact Nat.mod_eq_of_lt index.toNat_lt
  have hdata : data.toUInt8.toUInt32 ||| (data >>> 8).toUInt8.toUInt32 <<< 8 |||
      (data >>> 16).toUInt8.toUInt32 <<< 16 ||| (data >>> 24).toUInt8.toUInt32 <<< 24 = data := by
    apply UInt32.toNat_inj.mp
    have hbytes : leNat (bytes32 data) = data.toNat := by
      rw [bytes32_eq, leNat_leBytes]
      exact Nat.mod_eq_of_lt data.toNat_lt
    rw [toNat_join32]
    exact hbytes
  simp only [sdoDownload, bytes32, List.cons_append, List.nil_append, Download.ofBytes, hindex,
    hdata]

theorem Pdo.length_mappedObjects (pdo : Pdo) : pdo.mappedObjects.length ≤ 8 := by
  cases pdo <;> decide

theorem Pdo.bits_mappedObjects (pdo : Pdo) : (pdo.mappedObjects.map bitLength).sum ≤ 64 := by
  cases pdo <;> decide

theorem Pdo.index_ne (pdo : Pdo) : pdo.mapIndex ≠ pdo.commIndex := by
  cases pdo <;> simp [Pdo.mapIndex, Pdo.commIndex]

theorem Pdo.other_index {pdo' : Pdo} (h : pdo ≠ pdo') :
    pdo'.commIndex ≠ pdo.commIndex ∧ pdo'.commIndex ≠ pdo.mapIndex ∧
      pdo'.mapIndex ≠ pdo.commIndex ∧ pdo'.mapIndex ≠ pdo.mapIndex := by
  cases pdo <;> cases pdo' <;> simp_all [Pdo.mapIndex, Pdo.commIndex]

/-- A download to another index is none of the PDO's. -/
theorem pdoWrite_other {specifier subIndex : UInt8} {index : UInt16} {data : UInt32}
    (hcomm : index ≠ pdo.commIndex) (hmap : index ≠ pdo.mapIndex) :
    pdoWrite pdo (sdoDownload specifier index subIndex data) = none := by
  rw [pdoWrite, ofBytes_sdoDownload]
  simp [Download.pdoWrite, hcomm, hmap]

/-- The downloads for one PDO are its procedure. -/
theorem pdoWrites_own (node : NodeId) (pdo : Pdo) (base : UInt32) {objects : List UInt32}
    (hlength : objects.length ≤ 8) :
    (setupPdoMapping node pdo.commIndex pdo.mapIndex base objects).filterMap (pdoWrite pdo) =
      mappingProcedure (0x80000000 ||| (base + node.toUInt32)) 1 objects
        (base + node.toUInt32) := by
  have hentries : ((objects.zipIdx.map fun p =>
      sdoDownload 0x23 pdo.mapIndex (UInt8.ofNat (p.2 + 1)) p.1).filterMap (pdoWrite pdo)) =
      entryWrites 0 objects := by
    rw [entryWrites, List.filterMap_map, ← List.filterMap_eq_map]
    apply List.filterMap_congr
    rintro ⟨object, k⟩ hk
    have hlt : k + 1 < 256 := by
      have hbound := (List.mem_zipIdx hk).2.1
      omega
    simp [pdoWrite, ofBytes_sdoDownload, Download.pdoWrite, pdo.index_ne, Nat.mod_eq_of_lt hlt]
  have hcount : (UInt8.ofNat objects.length).toNat = objects.length := by
    rw [UInt8.toNat_ofNat']
    omega
  rw [setupPdoMapping, mappingProcedure, List.filterMap_append, List.filterMap_append, hentries]
  simp [pdoWrite, ofBytes_sdoDownload, Download.pdoWrite, pdo.index_ne, hcount]

/-- They are none of another PDO's. -/
theorem pdoWrites_other {pdo' : Pdo} (h : pdo ≠ pdo') (node : NodeId) (base : UInt32)
    (objects : List UInt32) :
    (setupPdoMapping node pdo'.commIndex pdo'.mapIndex base objects).filterMap (pdoWrite pdo) =
      [] := by
  obtain ⟨hcomm, hcommMap, hmapComm, hmap⟩ := Pdo.other_index h
  rw [setupPdoMapping, List.filterMap_append, List.filterMap_append, List.filterMap_map]
  simp [pdoWrite_other, hcomm, hcommMap, hmapComm, hmap]

/-- What `configure_node` writes to a PDO. -/
theorem pdoWrites_pdoMappings (node : NodeId) (pdo : Pdo) :
    (pdoMappings node).filterMap (pdoWrite pdo) =
      mappingProcedure (0x80000000 ||| (pdo.idBase.toUInt32 + node.toUInt32)) 1 pdo.mappedObjects
        (pdo.idBase.toUInt32 + node.toUInt32) := by
  let mapping (pdo' : Pdo) : List (List UInt8) :=
    setupPdoMapping node pdo'.commIndex pdo'.mapIndex pdo'.idBase.toUInt32 pdo'.mappedObjects
  have hall : pdoMappings node = [Pdo.rpdo1, .rpdo2, .tpdo1, .tpdo2, .tpdo3].flatMap mapping := rfl
  have hown := pdoWrites_own node pdo pdo.idBase.toUInt32 pdo.length_mappedObjects
  have hother : ∀ pdo', pdo ≠ pdo' → (mapping pdo').filterMap (pdoWrite pdo) = [] :=
    fun pdo' h => pdoWrites_other h node _ _
  rw [hall]
  simp only [List.flatMap_cons, List.flatMap_nil, List.filterMap_append, List.filterMap_nil]
  cases pdo <;> simp [hother, hown, mapping]

theorem download_foldl (payloads : List (List UInt8)) (table : PdoTable) (pdo : Pdo) :
    payloads.foldl m.download table pdo =
      (payloads.filterMap (pdoWrite pdo)).foldl (PdoParameters.accept (pdoRules m.mappable))
        (table pdo) := by
  induction payloads generalizing table with
  | nil => rfl
  | cons payload payloads ih =>
      rw [List.foldl_cons, ih]
      cases hwrite : pdoWrite pdo payload with
      | none => simp [DriveModel.download, hwrite]
      | some x => simp [DriveModel.download, hwrite]

theorem invalid_cobId (m : DriveModel) (cobId : UInt32) :
    (pdoRules m.mappable).valid (0x80000000 ||| cobId) = false := by
  have hbit : Nat.testBit (0x80000000 : UInt32).toNat 31 = true := by decide
  simp only [pdoRules, UInt32.toNat_or, Nat.testBit_or, hbit, Bool.true_or, Bool.not_true]

theorem suitable_objects (m : DriveModel) (pdo : Pdo) :
    Suitable (pdoRules m.mappable) pdo.mappedObjects where
  mappable := m.maps pdo
  length := pdo.length_mappedObjects
  bits := pdo.bits_mappedObjects

/-- From any parameters the downloads lead to the PDOs of `configure_node`. -/
theorem mapped_pdoMappings (m : DriveModel) (n : NodeId) (table : PdoTable) :
    Mapped n ((pdoMappings n).foldl m.download table) := by
  intro pdo
  rw [download_foldl, pdoWrites_pdoMappings]
  exact foldl_mappingProcedure (suitable_objects m pdo) (invalid_cobId m _) 1 (table pdo)

/-- What the drive has come to when its configuration is at the program counter. -/
def Drive.At (m : DriveModel) (n : NodeId) (d : Drive) (wake : Time) : ConfigureNode → Prop
  | .begin | .resetCommunication => True
  | .mapping rest => d.boot = .reset ∧ d.operational = false ∧ d.busyUntil ≤ wake ∧
      ∃ done, done ++ rest = pdoMappings n ∧ d.pdos = done.foldl m.download d.stored
  | .startNode => d.boot = .reset ∧ d.operational = false ∧ d.busyUntil ≤ wake ∧ Mapped n d.pdos
  | .stamp => d.boot = .reset ∧ d.operational = true ∧ Mapped n d.pdos

/-- The drive after an action of the node. -/
def Drive.after (m : DriveModel) (now : Time) (n : NodeId) (d : Drive) : Action → Drive
  | .write message => d.receive m now n message
  | _ => d

variable {d : Drive} {wake : Time} {pc pc' : ConfigureNode}

/-- The configuration takes its drive on. -/
theorem Drive.At.moves (h : d.At m n wake pc) (hwake : wake ≤ now)
    (hnext : (configureNode n pc).next = .inl pc') :
    (d.after m now n (configureNode n pc).act).At m n (now + (configureNode n pc).sleep) pc' := by
  cases pc with
  | begin =>
      cases hnext
      trivial
  | resetCommunication =>
      cases hnext
      have hreset : d.receive m now n (.nmt nmtResetCommunication n) = d.restart m now .reset := by
        simp [Drive.receive]
      change (d.receive m now n (.nmt nmtResetCommunication n)).At m n (now + 1 / 2) _
      rw [hreset]
      exact ⟨rfl, rfl, add_le_add_right m.boots now, [], rfl, rfl⟩
  | mapping rest =>
      obtain ⟨hboot, hoperational, hbusy, done, hall, hpdos⟩ := h
      cases rest with
      | nil =>
          cases hnext
          rw [List.append_nil] at hall
          refine ⟨hboot, hoperational, ?_, ?_⟩
          · change d.busyUntil ≤ now + 0
            rw [add_zero]
            exact hbusy.trans hwake
          · change Mapped n d.pdos
            rw [hpdos, hall]
            exact mapped_pdoMappings m n _
      | cons payload rest =>
          cases hnext
          have hserved : d.receive m now n (.sdo n payload) =
              { d with busyUntil := now + m.sdoTime, pdos := m.download d.pdos payload } := by
            simp [Drive.receive, hbusy.trans hwake]
          change (d.receive m now n (.sdo n payload)).At m n (now + 1 / 50) _
          rw [hserved]
          refine ⟨hboot, hoperational, add_le_add_right m.answers now, done ++ [payload], ?_, ?_⟩
          · rw [List.append_assoc]
            exact hall
          · rw [List.foldl_append, ← hpdos]
            rfl
  | startNode =>
      obtain ⟨hboot, -, hbusy, hmapped⟩ := h
      cases hnext
      have hstarted : d.receive m now n (.nmt nmtStartRemoteNode n) =
          { d with operational := true } := by
        simp [Drive.receive, nmtStartRemoteNode, nmtResetCommunication, hbusy.trans hwake]
      change (d.receive m now n (.nmt nmtStartRemoteNode n)).At m n (now + 1 / 10) _
      rw [hstarted]
      exact ⟨hboot, rfl, hmapped⟩
  | stamp => cases hnext

/-- A configuration leaves the drives of other nodes alone. -/
theorem Drive.after_other {k : NodeId} (hne : k ≠ n) (hzero : k ≠ 0) (d : Drive) :
    d.after m now n (configureNode k pc).act = d := by
  have hnmt : ∀ command, d.receive m now n (.nmt command k) = d :=
    fun command => if_pos ⟨hne, hzero⟩
  have hsdo : ∀ payload, d.receive m now n (.sdo k payload) = d :=
    fun payload => if_neg fun h => hne h.1
  cases pc with
  | mapping rest =>
      cases rest with
      | nil => rfl
      | cons payload rest => exact hsdo payload
  | resetCommunication => exact hnmt _
  | startNode => exact hnmt _
  | begin => rfl
  | stamp => rfl

/-- A message that concerns no PDO. -/
def CanMessage.Spares : CanMessage → Prop
  | .nmt _ _ => False
  | .sdo _ payload => ∀ pdo, pdoWrite pdo payload = none
  | _ => True

theorem Drive.receive_spares {message : CanMessage} (h : message.Spares) (d : Drive) :
    (d.receive m now n message).boot = d.boot ∧
      (d.receive m now n message).operational = d.operational ∧
      (d.receive m now n message).pdos = d.pdos := by
  cases message with
  | nmt => cases h
  | sdo node payload =>
      have hpdos : m.download d.pdos payload = d.pdos := by
        funext pdo
        simp [DriveModel.download, h pdo]
      simp only [Drive.receive]
      split
      · exact ⟨rfl, rfl, hpdos⟩
      · exact ⟨rfl, rfl, rfl⟩
  | _ => exact ⟨rfl, rfl, rfl⟩

/-- The nodes that a thread still goes through. -/
def Body.toConfigure : Body → List NodeId
  | .main (.configure rest) => rest
  | .main (.configuring node rest _) => node :: rest
  | .recovery (.resetting (.reinit rest)) => rest
  | .recovery (.resetting (.configure node rest _)) => node :: rest
  | _ => []

theorem Body.eq_of_configuring (h : b.configuring = some (n, pc)) :
    (∃ rest, b = .main (.configuring n rest pc)) ∨
      ∃ rest, b = .recovery (.resetting (.configure n rest pc)) := by
  unfold Body.configuring at h
  split at h
  · obtain ⟨rfl, rfl⟩ := Prod.mk.inj (Option.some.inj h)
    exact .inl ⟨_, rfl⟩
  · obtain ⟨rfl, rfl⟩ := Prod.mk.inj (Option.some.inj h)
    exact .inr ⟨_, rfl⟩
  · cases h

theorem Body.mem_toConfigure (h : b.configuring = some (n, pc)) : n ∈ b.toConfigure := by
  rcases Body.eq_of_configuring h with ⟨rest, rfl⟩ | ⟨rest, rfl⟩
  · exact List.mem_cons_self
  · exact List.mem_cons_self

/-- A thread that configures makes the access of `configure_node` and goes on with
it, or has returned from it. -/
theorem Body.turn_of_configuring (h : b.turn c s task = some turn)
    (hb : b.configuring = some (n, pc)) :
    turn.act = (configureNode n pc).act ∧ turn.spawned = none ∧ ∃ u, turn.self = some u ∧
      ((∃ pc', (configureNode n pc).next = .inl pc' ∧ u.configuring = some (n, pc') ∧
          turn.sleep = (configureNode n pc).sleep) ∨
        pc = .stamp ∧ u.configuring = none) := by
  have hstamp : ∀ r, (configureNode n pc).next = .inr r → pc = .stamp := by
    intro r hr
    cases pc with
    | stamp => rfl
    | mapping rest => cases rest <;> cases hr
    | _ => cases hr
  rcases Body.eq_of_configuring hb with ⟨rest, rfl⟩ | ⟨rest, rfl⟩
  · cases h
    refine ⟨Move.turn_act _ _ _, ?_, ?_⟩
    · unfold Move.turn
      split <;> rfl
    · cases hnext : (configureNode n pc).next with
      | inl pc' =>
          refine ⟨.main (.configuring n rest pc'), ?_, .inl ⟨pc', rfl, rfl, ?_⟩⟩ <;>
            simp [Move.turn, hnext]
      | inr r =>
          refine ⟨.main (.configure rest), ?_, .inr ⟨hstamp r hnext, rfl⟩⟩
          simp [Move.turn, hnext]
  · cases h
    refine ⟨?_, ?_, ?_⟩
    · rw [Move.turn_act, Move.call_act]
    · cases hnext : (configureNode n pc).next <;> simp [Move.turn, Move.call, hnext]
    · cases hnext : (configureNode n pc).next with
      | inl pc' =>
          refine ⟨.recovery (.resetting (.configure n rest pc')), ?_, .inl ⟨pc', rfl, rfl, ?_⟩⟩ <;>
            simp [Move.turn, Move.call, hnext]
      | inr r =>
          refine ⟨.recovery (.resetting (.reinit rest)), ?_, .inr ⟨hstamp r hnext, rfl⟩⟩
          simp [Move.turn, Move.call, hnext]

theorem resetMotor_configuring {nodes : List NodeId} {pc pc' : ResetMotor}
    {move : Move ResetMotor Bool} (h : resetMotor nodes σ task pc = some move)
    (hpc : Body.configuring (.recovery (.resetting pc)) = none)
    (hnext : move.next = .inl pc') :
    Body.configuring (.recovery (.resetting pc')) = none ∨
      ∃ n, Body.configuring (.recovery (.resetting pc')) = some (n, .begin) := by
  cases pc with
  | configure node rest pc => cases hpc
  | reinit rest =>
      cases rest with
      | nil =>
          cases h
          cases hnext
          exact .inl rfl
      | cons node rest =>
          rw [resetMotor] at h
          split at h <;> cases h <;> cases hnext
          · exact .inr ⟨node, rfl⟩
          · exact .inl rfl
  | guard rest =>
      left
      cases rest with
      | nil => cases h; cases hnext; rfl
      | cons node rest => rw [resetMotor] at h; split at h <;> cases h <;> cases hnext <;> rfl
  | faultReset node rest again =>
      left
      cases again <;> cases h <;> cases hnext <;> rfl
  | enabling tasks =>
      left
      obtain ⟨m', -, rfl⟩ := Option.map_eq_some_iff.mp h
      rcases Move.call_next hnext with ⟨_, -, hinside⟩ | ⟨_, -, hback⟩
      · cases hinside
        rfl
      · cases hback
        rfl
  | verify rest ok wait =>
      left
      cases rest with
      | nil => cases h; cases hnext
      | cons node rest =>
          cases h
          rcases Move.call_next hnext with ⟨_, -, hinside⟩ | ⟨_, -, hback⟩
          · cases hinside
            rfl
          · cases hback
            rfl

/-- A thread that has not been configuring begins to, or does not. -/
theorem Body.turn_begins_configuring {u : Body} (h : b.turn c s task = some turn)
    (hb : b.configuring = none) (hu : turn.self = some u) :
    u.configuring = none ∨ ∃ n, u.configuring = some (n, .begin) := by
  have hkind := Body.turn_kind h hu
  cases b with
  | main pc =>
      cases pc with
      | configure rest =>
          cases rest with
          | nil => cases h; cases hu; exact .inl rfl
          | cons node rest => cases h; cases hu; exact .inr ⟨node, rfl⟩
      | configuring node rest pc => cases hb
      | startSync => cases h; cases hu; exact .inl rfl
      | subscribe => cases h; cases hu; exact .inl rfl
      | update pc =>
          rcases updateTurn_self h hu with ⟨pc', rfl⟩ | hspin
          · exact .inl rfl
          · cases hspin
            exact .inl rfl
      | spin => cases h; cases hu; exact .inl rfl
      | running =>
          dsimp only [Body.turn, mainThread] at h
          split at h <;> cases h
          cases hu
          exact .inl rfl
      | destroyNode pc =>
          cases h
          rcases Move.turn_self hu with ⟨pc', -, rfl⟩ | ⟨_, -, hback⟩
          · exact .inl rfl
          · cases hback
            exact .inl rfl
      | stopSync => cases h; cases hu; exact .inl rfl
      | joinSync =>
          dsimp only [Body.turn, mainThread] at h
          split at h <;> cases h
          cases hu
          exact .inl rfl
      | destroyController pc =>
          cases h
          rcases Move.turn_self hu with ⟨pc', -, rfl⟩ | ⟨_, -, hback⟩
          · exact .inl rfl
          · cases hback
  | recovery pc =>
      cases pc with
      | resetting pc =>
          obtain ⟨move, hmove, rfl⟩ := Option.map_eq_some_iff.mp h
          rcases Move.turn_self hu with ⟨pc', hnext, rfl⟩ | ⟨ok, -, hback⟩
          · exact resetMotor_configuring hmove hb hnext
          · cases hback
            exact .inl rfl
      | storeEnabled ok => cases ok <;> cases h <;> cases hu <;> exact .inl rfl
      | clearError => cases h; cases hu; exact .inl rfl
      | release => cases h; cases hu
  | _ => cases u <;> first | exact .inl rfl | cases hkind

theorem Spawns.not_configuring {b : Body} (h : Spawns c now b) : b.configuring = none := by
  cases h <;> rfl

theorem resetMotor_toConfigure {nodes : List NodeId} {pc pc' : ResetMotor}
    {move : Move ResetMotor Bool} (h : resetMotor nodes σ task pc = some move)
    (hnext : move.next = .inl pc') :
    Body.toConfigure (.recovery (.resetting pc')) ⊆
      Body.toConfigure (.recovery (.resetting pc)) := by
  have hnone : ∀ l : List NodeId, [] ⊆ l := List.nil_subset
  cases pc with
  | reinit rest =>
      cases rest with
      | nil =>
          cases h
          cases hnext
          exact hnone _
      | cons node rest =>
          rw [resetMotor] at h
          split at h <;> cases h <;> cases hnext
          · exact List.Subset.refl _
          · exact List.subset_cons_self node rest
  | configure node rest pc =>
      cases h
      rcases Move.call_next hnext with ⟨_, -, hinside⟩ | ⟨_, -, hback⟩
      · cases hinside
        exact List.Subset.refl _
      · cases hback
        exact List.subset_cons_self node rest
  | guard rest =>
      cases rest with
      | nil => cases h; cases hnext; exact hnone _
      | cons node rest =>
          rw [resetMotor] at h
          split at h <;> cases h <;> cases hnext <;> exact hnone _
  | faultReset node rest again => cases again <;> cases h <;> cases hnext <;> exact hnone _
  | enabling tasks =>
      obtain ⟨m', -, rfl⟩ := Option.map_eq_some_iff.mp h
      rcases Move.call_next hnext with ⟨_, -, hinside⟩ | ⟨_, -, hback⟩
      · cases hinside
        exact hnone _
      · cases hback
        exact hnone _
  | verify rest ok wait =>
      cases rest with
      | nil => cases h; cases hnext
      | cons node rest =>
          cases h
          rcases Move.call_next hnext with ⟨_, -, hinside⟩ | ⟨_, -, hback⟩
          · cases hinside
            exact hnone _
          · cases hback
            exact hnone _

theorem mainThread_toConfigure {threads : List Thread} {pc : Main} {u : Body}
    (h : mainThread c σ threads pc = some turn) (hu : turn.self = some u) :
    u.toConfigure ⊆ Body.toConfigure (.main pc) := by
  have hnone : ∀ l : List NodeId, [] ⊆ l := List.nil_subset
  cases pc with
  | configure rest =>
      cases rest with
      | nil => cases h; cases hu; exact hnone _
      | cons node rest => cases h; cases hu; exact List.Subset.refl _
  | configuring node rest pc =>
      cases h
      rcases Move.turn_self hu with ⟨pc', -, rfl⟩ | ⟨_, -, hback⟩
      · exact List.Subset.refl _
      · cases hback
        exact List.subset_cons_self node rest
  | startSync => cases h; cases hu; exact hnone _
  | subscribe => cases h; cases hu; exact hnone _
  | update pc =>
      rcases updateTurn_self h hu with ⟨pc', rfl⟩ | hspin
      · exact hnone _
      · cases hspin
        exact hnone _
  | spin => cases h; cases hu; exact hnone _
  | running =>
      rw [mainThread] at h
      split at h <;> cases h
      cases hu
      exact hnone _
  | destroyNode pc =>
      cases h
      rcases Move.turn_self hu with ⟨pc', -, rfl⟩ | ⟨_, -, hback⟩
      · exact hnone _
      · cases hback
        exact hnone _
  | stopSync => cases h; cases hu; exact hnone _
  | joinSync =>
      rw [mainThread] at h
      split at h <;> cases h
      cases hu
      exact hnone _
  | destroyController pc =>
      cases h
      rcases Move.turn_self hu with ⟨pc', -, rfl⟩ | ⟨_, -, hback⟩
      · exact hnone _
      · cases hback

theorem Body.turn_toConfigure {u : Body} (h : b.turn c s task = some turn)
    (hu : turn.self = some u) : u.toConfigure ⊆ b.toConfigure := by
  have hkind := Body.turn_kind h hu
  cases b with
  | main pc => exact mainThread_toConfigure h hu
  | recovery pc =>
      cases pc with
      | resetting pc =>
          obtain ⟨move, hmove, rfl⟩ := Option.map_eq_some_iff.mp h
          rcases Move.turn_self hu with ⟨pc', hnext, rfl⟩ | ⟨ok, -, hback⟩
          · exact resetMotor_toConfigure hmove hnext
          · cases hback
            exact List.nil_subset _
      | storeEnabled ok => cases ok <;> cases h <;> cases hu <;> exact List.nil_subset _
      | clearError => cases h; cases hu; exact List.nil_subset _
      | release => cases h; cases hu
  | _ => cases u <;> first | exact List.nil_subset _ | cases hkind

theorem Spawns.toConfigure_subset {b : Body} (h : Spawns c now b) :
    b.toConfigure ⊆ c.driveMotorIds := by
  cases h with
  | recovery => exact List.Subset.refl _
  | transition want => cases want <;> exact List.nil_subset _
  | sync => exact List.nil_subset _

theorem enableTask_spares {node : NodeId} {pc : EnableTask} {message : CanMessage}
    (h : (enableTask σ node pc).act = .write message) : message.Spares := by
  have hmode : ∀ pdo : Pdo, pdoWrite pdo (sdoDownload 0x2F 0x6060 0 3) = none := by
    intro pdo
    apply pdoWrite_other <;> cases pdo <;> simp [Pdo.commIndex, Pdo.mapIndex]
  cases pc with
  | setMode =>
      cases h
      exact hmode
  | guard => rw [enableTask] at h; split at h <;> cases h
  | readInitial => rw [enableTask] at h; split at h <;> cases h
  | faultReset => cases h; trivial
  | shutdown again => cases again <;> cases h <;> trivial
  | switchOn again => cases again <;> cases h <;> trivial
  | enableOperation again => cases again <;> cases h <;> trivial
  | awaitReady wait => rw [enableTask, Move.call_act, waitForState_act] at h; cases h
  | awaitSwitchedOn wait => rw [enableTask, Move.call_act, waitForState_act] at h; cases h
  | awaitEnabled wait => rw [enableTask, Move.call_act, waitForState_act] at h; cases h

theorem enableMotor_spares {tasks : List Task} {move : Move (List Task) Bool}
    {message : CanMessage} (h : enableMotor σ task tasks = some move)
    (hact : move.act = .write message) : message.Spares := by
  unfold enableMotor at h
  split at h
  · cases h
    cases hact
  · obtain ⟨⟨a, ts⟩, hstep, rfl⟩ := Option.map_eq_some_iff.mp h
    obtain ⟨pre, ⟨node, wake, pc⟩, post, us, -, -, hmove, -⟩ := stepAt_split hstep
    cases pc with
    | inr ok => cases hmove
    | inl pc =>
        dsimp only [Task.step] at hmove
        split at hmove
        · obtain ⟨rfl, -⟩ := Prod.mk.inj (Option.some.inj hmove)
          exact enableTask_spares hact
        · cases hmove

theorem resetMotor_spares_drives {nodes : List NodeId} {pc : ResetMotor}
    {move : Move ResetMotor Bool} {message : CanMessage}
    (h : resetMotor nodes σ task pc = some move)
    (hpc : Body.configuring (.recovery (.resetting pc)) = none)
    (hact : move.act = .write message) : message.Spares := by
  cases pc with
  | configure node rest pc => cases hpc
  | reinit rest =>
      cases rest with
      | nil => cases h; cases hact
      | cons node rest => rw [resetMotor] at h; split at h <;> cases h <;> cases hact
  | guard rest =>
      cases rest with
      | nil => cases h; cases hact
      | cons node rest => rw [resetMotor] at h; split at h <;> cases h <;> cases hact
  | faultReset node rest again => cases again <;> cases h <;> cases hact <;> trivial
  | enabling tasks =>
      obtain ⟨m', hm', rfl⟩ := Option.map_eq_some_iff.mp h
      rw [Move.call_act] at hact
      exact enableMotor_spares hm' hact
  | verify rest ok wait =>
      cases rest with
      | nil => cases h; cases hact
      | cons node rest =>
          cases h
          rw [Move.call_act, waitForState_act] at hact
          cases hact

/-- A thread that does not configure writes to no PDO, and to an object dictionary
only while it holds the flag. -/
theorem Body.turn_spares {message : CanMessage} (h : b.turn c s task = some turn)
    (hb : b.configuring = none) (hact : turn.act = .write message) :
    message.Spares ∧ ∀ node payload, message = .sdo node payload → 0 < b.role.flags := by
  have hwrites := Body.turn_writes h hact
  generalize turn.act = a at hwrites hact
  cases hwrites with
  | configures node rest pc => cases hb
  | @disables pc hb =>
      unfold disableMotor at hact
      split at hact <;> cases hact
      · exact ⟨trivial, fun _ _ h => by cases h⟩
      · exact ⟨trivial, fun _ _ h => by cases h⟩
  | sends pc =>
      unfold syncLoop at hact
      split at hact <;> cases hact
      · exact ⟨trivial, fun _ _ h => by cases h⟩
      · exact ⟨trivial, fun _ _ h => by cases h⟩
  | enables hm => exact ⟨enableMotor_spares hm hact, fun _ _ _ => Nat.one_pos⟩
  | resets hm => exact ⟨resetMotor_spares_drives hm hb hact, fun _ _ _ => Nat.one_pos⟩

/-- While a thread configures, or holds the flag, no other one configures. -/
theorem configuring_alone {pre post : List Thread} {t u : Thread}
    (hreach : Reachable (step c) (start c now) s) (hthreads : s.threads = pre ++ t :: post)
    (ht : t.body.configuring ≠ none ∨ 0 < t.body.role.flags) (hu : u ∈ pre ++ post) :
    u.body.configuring = none := by
  by_contra hother
  obtain ⟨⟨n, pc⟩, hconfigures⟩ := Option.ne_none_iff_exists'.mp hother
  have hmem : u ∈ s.threads := other_mem hthreads hu
  have hmover : t ∈ s.threads := mover_mem hthreads
  cases reachable_phase hreach with
  | starting _ _ hstarting hmain =>
      -- Only the main thread and the resend loop run.
      have hfirst : t.body.mains = 1 := by
        have hstart := hstarting t hmover
        generalize t.body = b at ht hstart ⊢
        cases b with
        | main pc => rfl
        | sync pc =>
            rcases ht with hconf | hflag
            · exact absurd rfl hconf
            · cases hflag
        | _ => cases hstart
      have hsecond : u.body.mains = 1 := by
        have hstart := hstarting u hmem
        rcases Body.eq_of_configuring hconfigures with ⟨rest, hb⟩ | ⟨rest, hb⟩
        · rw [hb]
          rfl
        · rw [hb] at hstart
          cases hstart
      rw [hthreads] at hmain
      have htwo := add_le_tokens (w := fun u : Thread => u.body.mains) (t := t) hu
      have hone : t.body.mains + u.body.mains = 2 := by rw [hfirst, hsecond]
      omega
  | started _ hlate =>
      have hflagged : ∀ (v : Thread) (k : NodeId) (pc : ConfigureNode), v ∈ s.threads →
          v.body.configuring = some (k, pc) → 0 < v.body.role.flags := by
        intro v k pc hv hk
        rcases Body.eq_of_configuring hk with ⟨rest, hb⟩ | ⟨rest, hb⟩
        · cases hlate v hv _ hb
        · rw [hb]
          exact Nat.one_pos
      have hheld : 0 < t.body.role.flags := by
        rcases ht with hconf | hflag
        · obtain ⟨⟨k, pc'⟩, hk⟩ := Option.ne_none_iff_exists'.mp hconf
          exact hflagged t k pc' hmover hk
        · exact hflag
      have hfree := flags_of_others hreach hthreads hheld hu
      have hheldToo := hflagged u n pc hmem hconfigures
      omega

/-- Every configuration is where its drive has come to. -/
structure Prepared (m : DriveModel) (c : Config) (w : Bus) : Prop where
  listed : ∀ u ∈ w.node.threads, u.body.toConfigure ⊆ c.driveMotorIds
  placed : ∀ u ∈ w.node.threads, ∀ n pc, u.body.configuring = some (n, pc) →
    (w.drives n).At m n u.wake pc
  communicates : Communicates w

theorem start_prepared (m : DriveModel) (c : Config) (now : Time) {drives : NodeId → Drive}
    (hbefore : ∀ n, (drives n).boot = .before) : Prepared m c ⟨start c now, drives⟩ := by
  have hnone : ∀ u ∈ (start c now).threads, u.body.configuring = none ∧
      u.body.toConfigure ⊆ c.driveMotorIds := by
    intro u hu
    obtain rfl := List.mem_singleton.mp hu
    cases c.canOpen with
    | true => exact ⟨by simp [Body.configuring], by simp [Body.toConfigure]⟩
    | false => exact ⟨by simp [Body.configuring], by simp [Body.toConfigure]⟩
  refine ⟨fun u hu => (hnone u hu).2, ?_, ?_, ?_⟩
  · intro u hu n pc hpc
    rw [(hnone u hu).1] at hpc
    cases hpc
  · intro n hboot
    exact absurd (hbefore n) hboot
  · intro n hboot
    rw [hbefore n] at hboot
    cases hboot

section Moved

variable {pre post : List Thread} {t : Thread} {drives : NodeId → Drive}

theorem listed_after (hlisted : ∀ u ∈ s.threads, u.body.toConfigure ⊆ c.driveMotorIds)
    (hthreads : s.threads = pre ++ t :: post) (hturn : t.body.turn c s task = some turn) :
    ∀ u ∈ pre ++ turn.threads s.shared.now ++ post, u.body.toConfigure ⊆ c.driveMotorIds := by
  intro u hu
  rcases Body.threads_after hturn hu with hself | hspawns | hother
  · exact List.Subset.trans (Body.turn_toConfigure hturn hself) (hlisted t (mover_mem hthreads))
  · exact hspawns.toConfigure_subset
  · exact hlisted u (other_mem hthreads hother)

/-- A configuration makes an access, and its drive hears it. -/
theorem Prepared.configures (h : Prepared m c ⟨s, drives⟩) (hzero : 0 ∉ c.driveMotorIds)
    (hreach : Reachable (step c) (start c now) s) (hthreads : s.threads = pre ++ t :: post)
    (hwake : t.wake ≤ s.shared.now) (hturn : t.body.turn c s task = some turn)
    {k : NodeId} {pc : ConfigureNode} (hconf : t.body.configuring = some (k, pc)) :
    Prepared m c ⟨⟨s.shared.apply turn.act, pre ++ turn.threads s.shared.now ++ post⟩,
      fun n => (drives n).after m s.shared.now n turn.act⟩ := by
  have hmover := mover_mem hthreads
  have hat := h.placed t hmover k pc hconf
  obtain ⟨hact, hspawned, v, hself, hv⟩ := Body.turn_of_configuring hturn hconf
  have hk : k ≠ 0 := by
    rintro rfl
    exact hzero (h.listed t hmover (Body.mem_toConfigure hconf))
  have halone : ∀ u ∈ pre ++ post, u.body.configuring = none := fun u hu =>
    configuring_alone hreach hthreads (.inl (by simp [hconf])) hu
  have hothers : ∀ n, n ≠ k → (drives n).after m s.shared.now n turn.act = drives n := by
    intro n hn
    rw [hact]
    exact Drive.after_other (Ne.symm hn) hk _
  have hmine : (⟨v, s.shared.now + turn.sleep⟩ : Thread) ∈
      pre ++ turn.threads s.shared.now ++ post :=
    mem_replaced.mpr (.inl (Turn.self_mem hself))
  refine ⟨listed_after h.listed hthreads hturn, ?_, ?_, ?_⟩
  · intro u hu n pc' hpc'
    rcases mem_replaced.mp hu with hown | hother
    · rcases List.mem_append.mp hown with hself' | hspawned'
      · have hu : u = ⟨v, s.shared.now + turn.sleep⟩ := by simpa [hself] using hself'
        subst hu
        rcases hv with ⟨pc'', hnext, hv, hsleep⟩ | ⟨-, hv⟩
        · obtain ⟨rfl, rfl⟩ := Prod.mk.inj (Option.some.inj (hv.symm.trans hpc'))
          change ((drives k).after m s.shared.now k turn.act).At m k (s.shared.now + turn.sleep) _
          rw [hact, hsleep]
          exact hat.moves hwake hnext
        · rw [hv] at hpc'
          cases hpc'
      · simp [hspawned] at hspawned'
    · rw [halone u hother] at hpc'
      cases hpc'
  · intro n hboot hoperational
    by_cases hn : n = k
    · subst hn
      dsimp only at hboot hoperational ⊢
      rw [hact] at hboot hoperational ⊢
      rcases hv with ⟨pc', hnext, -, -⟩ | ⟨rfl, -⟩
      · have hmoved := hat.moves hwake hnext
        cases pc with
        | begin => exact h.communicates.mapped n hboot hoperational
        | resetCommunication =>
            cases hnext
            cases hoperational.symm.trans hmoved.2.1
        | mapping rest =>
            cases rest <;> cases hnext <;> cases hoperational.symm.trans hmoved.2.1
        | startNode =>
            cases hnext
            exact hmoved.2.2
        | stamp => cases hnext
      · exact hat.2.2
    · dsimp only at hboot hoperational ⊢
      rw [hothers n hn] at hboot hoperational ⊢
      exact h.communicates.mapped n hboot hoperational
  · intro n hboot
    by_cases hn : n = k
    · subst hn
      rcases hv with ⟨pc', -, hv, -⟩ | ⟨rfl, -⟩
      · exact .inr ⟨_, hmine, by simp [hv]⟩
      · left
        dsimp only
        rw [hact]
        exact hat.2.1
    · dsimp only at hboot ⊢
      rw [hothers n hn] at hboot ⊢
      rcases h.communicates.operational n hboot with hoperational | ⟨u, hu, hconfigures⟩
      · exact .inl hoperational
      · exfalso
        change u ∈ s.threads at hu
        rw [hthreads] at hu
        rcases mem_at.mp hu with rfl | hother
        · rw [hconf] at hconfigures
          exact hn (Option.some.inj hconfigures).symm
        · rw [halone u hother] at hconfigures
          cases hconfigures

/-- Any other access leaves the PDOs alone; whether the drives hear it does not
matter. -/
theorem Prepared.spares (h : Prepared m c ⟨s, drives⟩)
    (hreach : Reachable (step c) (start c now) s) (hthreads : s.threads = pre ++ t :: post)
    (hturn : t.body.turn c s task = some turn) (hconf : t.body.configuring = none)
    {drives' : NodeId → Drive} (hdrives : ∀ n, drives' n = drives n ∨
      drives' n = (drives n).after m s.shared.now n turn.act) :
    Prepared m c ⟨⟨s.shared.apply turn.act, pre ++ turn.threads s.shared.now ++ post⟩,
      drives'⟩ := by
  have hsame : ∀ n, (drives' n).boot = (drives n).boot ∧
      (drives' n).operational = (drives n).operational ∧ (drives' n).pdos = (drives n).pdos := by
    intro n
    rcases hdrives n with hd | hd
    · rw [hd]
      exact ⟨rfl, rfl, rfl⟩
    · rw [hd]
      cases hact : turn.act with
      | write message =>
          exact Drive.receive_spares (Body.turn_spares hturn hconf hact).1 _
      | _ => exact ⟨rfl, rfl, rfl⟩
  -- A configuration under way sees nothing of the access.
  have hkept : ∀ u ∈ pre ++ post, u.body.configuring ≠ none → ∀ n, drives' n = drives n := by
    intro u hu hu' n
    rcases hdrives n with hd | hd
    · exact hd
    · rw [hd]
      cases hact : turn.act with
      | write message =>
          obtain ⟨hspares, hflag⟩ := Body.turn_spares hturn hconf hact
          cases message with
          | nmt => cases hspares
          | sdo node payload =>
              exact absurd (configuring_alone hreach hthreads (.inr (hflag _ _ rfl)) hu) hu'
          | _ => rfl
      | _ => rfl
  refine ⟨listed_after h.listed hthreads hturn, ?_, ?_, ?_⟩
  · intro u hu n pc hpc
    rcases Body.threads_after hturn hu with hself | hspawns | hother
    · rcases Body.turn_begins_configuring hturn hconf hself with hnone | ⟨k, hbegin⟩
      · rw [hnone] at hpc
        cases hpc
      · obtain ⟨rfl, rfl⟩ := Prod.mk.inj (Option.some.inj (hbegin.symm.trans hpc))
        trivial
    · rw [hspawns.not_configuring] at hpc
      cases hpc
    · dsimp only
      rw [hkept u hother (by simp [hpc]) n]
      exact h.placed u (other_mem hthreads hother) n pc hpc
  · intro n hboot hoperational
    dsimp only at hboot hoperational ⊢
    rw [(hsame n).1] at hboot
    rw [(hsame n).2.1] at hoperational
    rw [(hsame n).2.2]
    exact h.communicates.mapped n hboot hoperational
  · intro n hboot
    dsimp only at hboot ⊢
    rw [(hsame n).1] at hboot
    rw [(hsame n).2.1]
    rcases h.communicates.operational n hboot with hoperational | ⟨u, hu, hconfigures⟩
    · exact .inl hoperational
    · right
      change u ∈ s.threads at hu
      rw [hthreads] at hu
      rcases mem_at.mp hu with rfl | hother
      · rw [hconf] at hconfigures
        cases hconfigures
      · exact ⟨u, mem_replaced.mpr (.inr hother), hconfigures⟩

end Moved

theorem drivesAfter_cases (m : DriveModel) (c : Config) (s : State) (l : Label) (lost : Bool)
    (drives : NodeId → Drive) (n : NodeId) :
    drivesAfter m c s l lost drives n = drives n ∨
      ∃ a, actionOf c s l = some a ∧
        drivesAfter m c s l lost drives n = (drives n).after m s.shared.now n a := by
  unfold drivesAfter
  split
  · rename_i message hact
    split
    · exact .inr ⟨_, hact, rfl⟩
    · exact .inl rfl
  · exact .inl rfl

theorem drivesAfter_heard {a : Action} (hact : actionOf c s l = some a)
    (hopen : c.canOpen = true) (drives : NodeId → Drive) :
    drivesAfter m c s l false drives = fun n => (drives n).after m s.shared.now n a := by
  funext n
  unfold drivesAfter
  rw [hact]
  cases a with
  | write message => simp [hopen, Drive.after]
  | _ => rfl

theorem drivesAfter_of_none (hact : actionOf c s l = none) (lost : Bool)
    (drives : NodeId → Drive) : drivesAfter m c s l lost drives = drives := by
  funext n
  unfold drivesAfter
  rw [hact]

/-- The threads and the drives stay as they are. -/
theorem Prepared.idle {drives : NodeId → Drive} (h : Prepared m c ⟨s, drives⟩)
    (hthreads : s'.threads = s.threads) : Prepared m c ⟨s', drives⟩ := by
  obtain ⟨hlisted, hplaced, hmapped, hoperational⟩ := h
  refine ⟨?_, ?_, hmapped, ?_⟩
  · intro u hu
    exact hlisted u (hthreads ▸ hu)
  · intro u hu
    exact hplaced u (hthreads ▸ hu)
  · intro n hboot
    rcases hoperational n hboot with hop | ⟨u, hu, hconf⟩
    · exact .inl hop
    · exact .inr ⟨u, hthreads.symm ▸ hu, hconf⟩

theorem step_prepared {drives : NodeId → Drive} {lost : Bool} (h : Prepared m c ⟨s, drives⟩)
    (hopen : c.canOpen = true) (hzero : 0 ∉ c.driveMotorIds)
    (hreach : Reachable (step c) (start c now) s)
    (hok : Undisturbed ⟨s, drives⟩ (.node l lost)) (hstep : step c s l = some s') :
    Prepared m c ⟨s', drivesAfter m c s l lost drives⟩ := by
  cases step_cases hstep with
  | delayed d hd =>
      rw [drivesAfter_of_none rfl]
      exact h.idle rfl
  | received f hf =>
      rw [drivesAfter_of_none rfl]
      exact h.idle rfl
  | @called _ b hspin hb =>
      rw [drivesAfter_of_none hb.actionOf_eq_none]
      have hnone : b.configuring = none ∧ b.toConfigure = [] := by
        cases hb <;> exact ⟨rfl, rfl⟩
      refine ⟨?_, ?_, h.communicates.mapped, ?_⟩
      · intro u hu
        rcases List.mem_append.mp hu with hold | hnew
        · exact h.listed u hold
        · obtain rfl := List.mem_singleton.mp hnew
          rw [hnone.2]
          exact List.nil_subset _
      · intro u hu n pc hpc
        rcases List.mem_append.mp hu with hold | hnew
        · exact h.placed u hold n pc hpc
        · obtain rfl := List.mem_singleton.mp hnew
          rw [hnone.1] at hpc
          cases hpc
      · intro n hboot
        rcases h.communicates.operational n hboot with hop | ⟨u, hu, hconf⟩
        · exact .inl hop
        · exact .inr ⟨u, List.mem_append_left _ hu, hconf⟩
  | @moved task pre post t turn hthreads hwake hturn hact =>
      cases hconf : t.body.configuring with
      | some place =>
          obtain ⟨k, pc⟩ := place
          have hheard : lost = false := by
            by_contra hlost
            have hnone := hok (by simpa using hlost) _ (mover_eq hthreads)
            rw [hconf] at hnone
            cases hnone
          rw [hheard, drivesAfter_heard hact hopen]
          exact h.configures hzero hreach hthreads hwake hturn hconf
      | none =>
          apply h.spares hreach hthreads hturn hconf
          intro n
          rcases drivesAfter_cases m c s (.thread pre.length task) lost drives n with
            hd | ⟨a, ha, hd⟩
          · exact .inl hd
          · obtain rfl := Option.some.inj (hact.symm.trans ha)
            exact .inr hd

/-- A drive that is not being configured may lose its power. -/
theorem powerCycle_prepared {drives : NodeId → Drive} {d : Drive} (h : Prepared m c ⟨s, drives⟩)
    (hboot : d.boot = .power) (hdown : d.operational = false) (hok : ¬ s.Configures n) :
    Prepared m c ⟨s, Function.update drives n d⟩ := by
  have hother : ∀ k, k ≠ n → Function.update drives n d k = drives k :=
    fun k hk => Function.update_of_ne hk _ _
  have hself : Function.update drives n d n = d := Function.update_self _ _ _
  refine ⟨h.listed, ?_, ?_, ?_⟩
  · intro u hu k pc hpc
    have hk : k ≠ n := by
      rintro rfl
      exact hok ⟨u, hu, by simp [hpc]⟩
    dsimp only
    rw [hother k hk]
    exact h.placed u hu k pc hpc
  · intro k hcame hoperational
    dsimp only at hcame hoperational ⊢
    by_cases hk : k = n
    · subst hk
      rw [hself, hdown] at hoperational
      cases hoperational
    · rw [hother k hk] at hcame hoperational ⊢
      exact h.communicates.mapped k hcame hoperational
  · intro k hcame
    dsimp only at hcame ⊢
    by_cases hk : k = n
    · subst hk
      rw [hself, hboot] at hcame
      cases hcame
    · rw [hother k hk] at hcame ⊢
      exact h.communicates.operational k hcame

/-- In every run, whichever drives lose their power and whichever frames are lost
outside of their configurations, and whatever the drives have stored: a drive that
has come up in the run is operational with the PDOs of `configure_node` alone, and
each that a thread has reset is operational once the thread is done with it. -/
theorem operational_drives_mapped (m : DriveModel) (c : Config) (now : Time)
    (drives : NodeId → Drive) (ls : List BusLabel) (hopen : c.canOpen = true)
    (hzero : 0 ∉ c.driveMotorIds) (hbefore : ∀ n, (drives n).boot = .before)
    (hok : Along (busStep m c) (fun w l _ => Undisturbed w l) ⟨start c now, drives⟩ ls) :
    Along (busStep m c) (fun _ _ w' => Communicates w') ⟨start c now, drives⟩ ls := by
  let Inv (w : Bus) : Prop := Reachable (step c) (start c now) w.node ∧ Prepared m c w
  have hstart : Inv ⟨start c now, drives⟩ := ⟨⟨[], rfl⟩, start_prepared m c now hbefore⟩
  have keep : ∀ w l w', Inv w → Undisturbed w l → busStep m c w l = some w' → Inv w' := by
    rintro ⟨s, drives⟩ l w' ⟨hreach, h⟩ hok hl
    cases l with
    | node l lost =>
        obtain ⟨s', hstep, rfl⟩ := Option.map_eq_some_iff.mp hl
        exact ⟨hreach.step hstep, step_prepared h hopen hzero hreach hok hstep⟩
    | powerCycle n stored =>
        obtain rfl := Option.some.inj hl
        exact ⟨hreach, powerCycle_prepared h rfl rfl hok⟩
  exact along_of_invariant keep
    (fun w l w' hw hok hl => (keep w l w' hw hok hl).2.communicates) hstart hok

/-- A drive that maps everything and stores nothing. -/
def blankModel : DriveModel where
  mappable := fun _ => true
  bootTime := 1 / 4
  sdoTime := 1 / 100
  maps := fun _ _ _ => rfl
  boots := by norm_num
  answers := by norm_num

def blankPdo : PdoParameters UInt32 UInt32 where
  cobId := 0x80000000
  transmissionType := 255
  count := 0
  entries := fun _ => 0

def blankDrive : Drive where
  boot := .before
  operational := false
  busyUntil := 0
  stored := fun _ => blankPdo
  pdos := fun _ => blankPdo

/-- The bring-up of one drive, which loses its power afterwards. -/
def bringUpAndDown : List BusLabel :=
  bringUp.map (fun l => .node l false) ++ [.powerCycle 1 fun _ => blankPdo]

theorem operational_drives_mapped_bringUp :
    Along (busStep blankModel oneDrive) (fun _ _ w' => Communicates w')
      ⟨start oneDrive 100, fun _ => blankDrive⟩ bringUpAndDown :=
  operational_drives_mapped blankModel oneDrive 100 _ _ rfl (by decide) (fun _ => rfl)
    (by decide +kernel)

end PolishingRobot.Motor
