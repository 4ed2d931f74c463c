import PolishingRobot.Runs.LabelledRuns
import PolishingRobot.Safety.Configuration
import PolishingRobot.Safety.ModbusTcpClient

/-!
# Polling and the unified E-stop

A poll reads the input and the output block and publishes every signal. The
unified E-stop is accumulated over the inputs that are registered sources and
forced on by a power output that is off. Without both blocks it is on.
-/

namespace PolishingRobot.Safety

open Runs

/-- The messages the node publishes, one constructor per topic. -/
inductive Publication where
  | connected (b : Bool)
  | input (name : String) (b : Bool)
  | output (name : String) (b : Bool)
  | estop (b : Bool)
  | stateAll (text : String)
  deriving DecidableEq, Repr

/-- The node between callbacks, with all it has published. -/
structure SafetyIONode where
  client : ModbusTcpClient
  published : List Publication

variable (c : Configuration)

/-- `publishHardwareEstop`: nothing without sources. -/
def publishHardwareEstop (active : Bool) : List Publication :=
  if c.estopSources.val = [] then [] else [.estop active]

/-- The two reads of a poll; the second only after the first succeeded. A
failure closes the socket. -/
def readBlocks (x : Exchange × Exchange) (cl : ModbusTcpClient) :
    Option (List UInt8 × List UInt8) × ModbusTcpClient :=
  match cl.readDiscreteInputs x.1 (UInt16.ofNat c.inputRange.base)
      (UInt16.ofNat c.inputRange.count) with
  | (none, cl) => (none, cl.closeSocket)
  | (some ins, cl) =>
      match cl.readDiscreteInputs x.2 (UInt16.ofNat c.outputRange.base)
          (UInt16.ofNat c.outputRange.count) with
      | (none, cl) => (none, cl.closeSocket)
      | (some outs, cl) => (some (ins, outs), cl)

/-- An access to a read vector; past its end it is undefined. -/
def bitAt (values : List UInt8) (bit : Nat) : Option Bool := values[bit]?.map (· != 0)

/-- The accumulators of the three loops of a poll. -/
structure Scan where
  active : Bool := false
  powerFound : Bool := false
  powerOn : Bool := false
  published : List Publication := []
  state : String := ""

/-- One signal in the text of `state_all`. -/
def signalText (name : String) (value : Bool) : String :=
  " " ++ name ++ "=" ++ (if value then "1" else "0")

/-- One turn of the input loop: a registered source in its triggered level
raises the E-stop. -/
def scanInput (values : List UInt8) (acc : Scan) (s : Signal) : Option Scan := do
  let value ← bitAt values s.bit
  let triggered := match c.estopSources.val.lookup s.name with
    | some activeLow => if activeLow then !value else value
    | none => false
  return { acc with
    active := acc.active || triggered
    published := acc.published ++ [.input s.name value]
    state := acc.state ++ signalText s.name value }

/-- One turn of the output loop: the power output is remembered. -/
def scanOutput (values : List UInt8) (acc : Scan) (s : Signal) : Option Scan := do
  let value ← bitAt values s.bit
  let isPower := c.hardwareEstopPowerOutput ≠ "" ∧ s.name = c.hardwareEstopPowerOutput
  return { acc with
    powerFound := if isPower then true else acc.powerFound
    powerOn := if isPower then value else acc.powerOn
    published := acc.published ++ [.output s.name value]
    state := acc.state ++ signalText s.name value }

/-- One turn of the loop over the outputs that the input block reports. -/
def scanConfigIoOutput (values : List UInt8) (acc : Scan) (s : Signal) : Option Scan := do
  let value ← bitAt values s.bit
  return { acc with
    published := acc.published ++ [.output s.name value]
    state := acc.state ++ signalText s.name value }

/-- The three loops. -/
def scanBlocks (ins outs : List UInt8) : Option Scan := do
  let acc ← c.inputs.signals.foldlM (scanInput c ins) { state := "inputs" }
  let acc ← c.outputs.signals.foldlM (scanOutput c outs)
    { acc with state := acc.state ++ "; outputs" }
  c.configIoOutputs.signals.foldlM (scanConfigIoOutput ins) acc

/-- The unified E-stop after the loops. -/
def Scan.estop (acc : Scan) : Bool := acc.active || (acc.powerFound && !acc.powerOn)

/-- What a poll publishes once both blocks are read. -/
def report (acc : Scan) : List Publication :=
  [.connected true] ++ acc.published ++ publishHardwareEstop c acc.estop ++
    [.stateAll (if c.estopSources.val = [] then acc.state
      else acc.state ++ "; hardware_estop=" ++ (if acc.estop then "1" else "0"))]

/-- `poll`: `none` only where the source indexes past the end of a vector. -/
def poll (n : SafetyIONode) (x : Exchange × Exchange) : Option SafetyIONode :=
  match readBlocks c x n.client with
  | (none, cl) =>
      some ⟨cl, n.published ++ ([.connected false] ++ publishHardwareEstop c true)⟩
  | (some (ins, outs), cl) =>
      (scanBlocks c ins outs).map fun acc => ⟨cl, n.published ++ report c acc⟩

/-- The node the constructor leaves. -/
def start : SafetyIONode where
  client := { unitId := c.unitId }
  published := [.connected false] ++ publishHardwareEstop c true

/-- The values published on the E-stop topic, in order. -/
def estops (published : List Publication) : List Bool :=
  published.filterMap fun
    | .estop b => some b
    | _ => none

/-- The value last published on the E-stop topic. -/
def estopValue (n : SafetyIONode) : Option Bool := (estops n.published).getLast?

/-- Every signal's bit lies inside the block that is read for it. -/
def Configuration.BitsInRange (c : Configuration) : Prop :=
  (∀ s ∈ c.inputs.signals, s.bit < c.inputRange.count) ∧
    (∀ s ∈ c.outputs.signals, s.bit < c.outputRange.count) ∧
    ∀ s ∈ c.configIoOutputs.signals, s.bit < c.inputRange.count

instance : Decidable c.BitsInRange := inferInstanceAs (Decidable (_ ∧ _))

/-- Every registered source's input bit is in its untriggered level. -/
def Untriggered (ins : List UInt8) : Prop :=
  ∀ name activeLow, c.estopSources.val.lookup name = some activeLow →
    ∃ s ∈ c.inputs.signals, s.name = name ∧ ins[s.bit]? = some (if activeLow then 1 else 0)

/-- The power output, if one is set, is on. -/
def PowerOn (outs : List UInt8) : Prop :=
  c.hardwareEstopPowerOutput ≠ "" →
    ∃ s ∈ c.outputs.signals, s.name = c.hardwareEstopPowerOutput ∧ outs[s.bit]? = some 1

variable {c} {ins outs values : List UInt8} {acc acc' : Scan} {signals : List Signal}

theorem estops_append (l₁ l₂ : List Publication) : estops (l₁ ++ l₂) = estops l₁ ++ estops l₂ :=
  List.filterMap_append

/-- An access inside the vector is defined. -/
theorem bitAt_of_lt {bit : Nat} (h : bit < values.length) : ∃ b, bitAt values bit = some b :=
  ⟨values[bit] != 0, by simp [bitAt, h]⟩

/-- A source signal reads its triggered level. -/
def Triggers (c : Configuration) (values : List UInt8) (s : Signal) : Prop :=
  ∃ activeLow, c.estopSources.val.lookup s.name = some activeLow ∧
    bitAt values s.bit = some (!activeLow)

/-- What one turn of the input loop does. -/
theorem scanInput_some {s : Signal} (h : scanInput c values acc s = some acc') :
    (acc'.active = true ↔ acc.active = true ∨ Triggers c values s) ∧
      acc'.powerFound = acc.powerFound ∧ acc'.powerOn = acc.powerOn ∧
      estops acc'.published = estops acc.published := by
  obtain ⟨value, hvalue, hacc⟩ := Option.bind_eq_some_iff.mp h
  obtain rfl := Option.some.inj hacc
  refine ⟨?_, rfl, rfl, by simp [estops]⟩
  simp only [Bool.or_eq_true, Triggers, hvalue]
  cases hsource : c.estopSources.val.lookup s.name with
  | none => simp
  | some activeLow => cases activeLow <;> cases value <;> simp

theorem foldlM_scanInput (h : signals.foldlM (scanInput c values) acc = some acc') :
    (acc'.active = true ↔ acc.active = true ∨ ∃ s ∈ signals, Triggers c values s) ∧
      acc'.powerFound = acc.powerFound ∧ acc'.powerOn = acc.powerOn ∧
      estops acc'.published = estops acc.published := by
  induction signals generalizing acc with
  | nil =>
      obtain rfl : acc = acc' := Option.some.inj h
      simp
  | cons s signals ih =>
      rw [List.foldlM_cons] at h
      obtain ⟨acc₁, h₁, hrest⟩ := Option.bind_eq_some_iff.mp h
      obtain ⟨hactive, hfound, hon, hpub⟩ := scanInput_some h₁
      obtain ⟨hactive', hfound', hon', hpub'⟩ := ih hrest
      refine ⟨?_, hfound'.trans hfound, hon'.trans hon, hpub'.trans hpub⟩
      rw [hactive', hactive]
      simp only [List.mem_cons, exists_eq_or_imp, or_assoc]

/-- The output loop leaves the power value alone or ends with the value of an
output of that name. -/
theorem foldlM_scanOutput (h : signals.foldlM (scanOutput c values) acc = some acc') :
    acc'.active = acc.active ∧ estops acc'.published = estops acc.published ∧
      ((acc'.powerFound = acc.powerFound ∧ acc'.powerOn = acc.powerOn ∧
          (c.hardwareEstopPowerOutput ≠ "" →
            ∀ s ∈ signals, s.name ≠ c.hardwareEstopPowerOutput)) ∨
        (acc'.powerFound = true ∧ c.hardwareEstopPowerOutput ≠ "" ∧
          ∃ s ∈ signals, s.name = c.hardwareEstopPowerOutput ∧
            bitAt values s.bit = some acc'.powerOn)) := by
  induction signals generalizing acc with
  | nil =>
      obtain rfl : acc = acc' := Option.some.inj h
      simp
  | cons s signals ih =>
      rw [List.foldlM_cons] at h
      obtain ⟨acc₁, h₁, hrest⟩ := Option.bind_eq_some_iff.mp h
      obtain ⟨value, hvalue, hacc⟩ := Option.bind_eq_some_iff.mp h₁
      obtain ⟨hactive, hpub, hpower⟩ := ih hrest
      obtain rfl := Option.some.inj hacc
      refine ⟨hactive, by simpa [estops] using hpub, ?_⟩
      by_cases hs : c.hardwareEstopPowerOutput ≠ "" ∧ s.name = c.hardwareEstopPowerOutput
      · right
        rcases hpower with ⟨hfound, hon, -⟩ | ⟨hfound, hset, s', hs', hname, hbit⟩
        · simp only [hs, ne_eq, not_false_eq_true, and_self, if_true] at hfound hon
          exact ⟨hfound, hs.1, s, by simp, hs.2, by rw [hon, hvalue]⟩
        · exact ⟨hfound, hset, s', by simp [hs'], hname, hbit⟩
      · rcases hpower with ⟨hfound, hon, hnone⟩ | ⟨hfound, hset, s', hs', hname, hbit⟩
        · left
          simp only [hs, if_false] at hfound hon
          refine ⟨hfound, hon, ?_⟩
          intro hset s' hs'
          rcases List.mem_cons.mp hs' with rfl | hs'
          · exact fun hname => hs ⟨hset, hname⟩
          · exact hnone hset s' hs'
        · exact .inr ⟨hfound, hset, s', by simp [hs'], hname, hbit⟩

theorem foldlM_scanConfigIoOutput
    (h : signals.foldlM (scanConfigIoOutput values) acc = some acc') :
    acc'.estop = acc.estop ∧ estops acc'.published = estops acc.published := by
  induction signals generalizing acc with
  | nil =>
      obtain rfl : acc = acc' := Option.some.inj h
      simp
  | cons s signals ih =>
      rw [List.foldlM_cons] at h
      obtain ⟨acc₁, h₁, hrest⟩ := Option.bind_eq_some_iff.mp h
      obtain ⟨value, hvalue, hacc⟩ := Option.bind_eq_some_iff.mp h₁
      obtain ⟨hestop, hpub⟩ := ih hrest
      obtain rfl := Option.some.inj hacc
      exact ⟨hestop, by simpa [estops] using hpub⟩

/-- A loop whose turns are all defined is defined. -/
theorem foldlM_isSome {f : Scan → Signal → Option Scan}
    (h : ∀ acc, ∀ s ∈ signals, ∃ acc', f acc s = some acc') (acc : Scan) :
    ∃ acc', signals.foldlM f acc = some acc' := by
  induction signals generalizing acc with
  | nil => exact ⟨acc, rfl⟩
  | cons s signals ih =>
      obtain ⟨acc₁, h₁⟩ := h acc s (by simp)
      have hrest : ∀ acc, ∀ s' ∈ signals, ∃ acc', f acc s' = some acc' := by
        intro acc s' hs'
        exact h acc s' (by simp [hs'])
      obtain ⟨acc', h'⟩ := ih hrest acc₁
      refine ⟨acc', ?_⟩
      rw [List.foldlM_cons]
      exact Option.bind_eq_some_iff.mpr ⟨acc₁, h₁, h'⟩

/-- With all bits in range no access of the loops leaves its vector. -/
theorem scanBlocks_isSome (hbits : c.BitsInRange) (hins : ins.length = c.inputRange.count)
    (houts : outs.length = c.outputRange.count) : ∃ acc, scanBlocks c ins outs = some acc := by
  obtain ⟨hinputs, houtputs, hconfig⟩ := hbits
  rw [← hins] at hinputs hconfig
  rw [← houts] at houtputs
  obtain ⟨acc₁, h₁⟩ : ∃ acc, c.inputs.signals.foldlM (scanInput c ins) { state := "inputs" } =
      some acc := by
    apply foldlM_isSome
    intro acc s hs
    obtain ⟨b, hb⟩ := bitAt_of_lt (hinputs s hs)
    simp [scanInput, hb]
  obtain ⟨acc₂, h₂⟩ : ∃ acc, c.outputs.signals.foldlM (scanOutput c outs)
      { acc₁ with state := acc₁.state ++ "; outputs" } = some acc := by
    apply foldlM_isSome
    intro acc s hs
    obtain ⟨b, hb⟩ := bitAt_of_lt (houtputs s hs)
    simp [scanOutput, hb]
  obtain ⟨acc₃, h₃⟩ : ∃ acc, c.configIoOutputs.signals.foldlM (scanConfigIoOutput ins) acc₂ =
      some acc := by
    apply foldlM_isSome
    intro acc s hs
    obtain ⟨b, hb⟩ := bitAt_of_lt (hconfig s hs)
    simp [scanConfigIoOutput, hb]
  refine ⟨acc₃, ?_⟩
  unfold scanBlocks
  apply Option.bind_eq_some_iff.mpr
  exact ⟨acc₁, h₁, Option.bind_eq_some_iff.mpr ⟨acc₂, h₂, h₃⟩⟩

/-- For 0/1 vectors an access returns the level. -/
theorem bitAt_eq_some_iff (hv : ∀ v ∈ values, v = 0 ∨ v = 1) {bit : Nat} {b : Bool} :
    bitAt values bit = some b ↔ values[bit]? = some (if b then 1 else 0) := by
  unfold bitAt
  cases hget : values[bit]? with
  | none => simp
  | some v =>
      have hmem : v ∈ values := List.mem_of_getElem? hget
      rcases hv v hmem with rfl | rfl <;> cases b <;> decide

theorem mem_of_lookup {sources : List (String × Bool)} {name : String} {activeLow : Bool}
    (h : sources.lookup name = some activeLow) : (name, activeLow) ∈ sources := by
  induction sources with
  | nil => cases h
  | cons e sources ih =>
      obtain ⟨key, value⟩ := e
      rw [List.lookup_cons] at h
      split at h
      · rename_i hkey
        obtain rfl := Option.some.inj h
        obtain rfl : name = key := by simpa using hkey
        simp
      · exact List.mem_cons_of_mem _ (ih h)

/-- No source triggers exactly if every source is in its untriggered level. -/
theorem untriggered_iff (hbits : c.BitsInRange) (hins : ins.length = c.inputRange.count)
    (hv : ∀ v ∈ ins, v = 0 ∨ v = 1) :
    (¬ ∃ s ∈ c.inputs.signals, Triggers c ins s) ↔ Untriggered c ins := by
  constructor
  · intro hquiet name activeLow hsource
    have hknown : name ∈ c.inputs.names := c.estopSources.property _ (mem_of_lookup hsource)
    obtain ⟨s, hs, rfl⟩ := List.mem_map.mp hknown
    have hbit : s.bit < ins.length := hins ▸ hbits.1 s hs
    obtain ⟨b, hb⟩ := bitAt_of_lt hbit
    refine ⟨s, hs, rfl, ?_⟩
    have hlevel : b = activeLow := by
      by_contra hne
      apply hquiet
      refine ⟨s, hs, activeLow, hsource, ?_⟩
      rw [hb]
      cases b <;> cases activeLow <;> simp_all
    rw [← (bitAt_eq_some_iff hv), hb, hlevel]
  · rintro hlevels ⟨s, hs, activeLow, hsource, hbit⟩
    obtain ⟨s', hs', hname, hlevel⟩ := hlevels s.name activeLow hsource
    obtain rfl := c.inputs.eq_of_name hs' hs hname
    rw [← bitAt_eq_some_iff hv, hbit] at hlevel
    cases activeLow <;> simp at hlevel

/-- The value accumulated over both blocks. -/
theorem scanBlocks_estop (hbits : c.BitsInRange) (hins : ins.length = c.inputRange.count)
    (hv : ∀ v ∈ ins, v = 0 ∨ v = 1) (hw : ∀ v ∈ outs, v = 0 ∨ v = 1)
    (h : scanBlocks c ins outs = some acc) :
    (acc.estop = false ↔ Untriggered c ins ∧ PowerOn c outs) ∧ estops acc.published = [] := by
  obtain ⟨acc₁, h₁, h⟩ := Option.bind_eq_some_iff.mp h
  obtain ⟨acc₂, h₂, h₃⟩ := Option.bind_eq_some_iff.mp h
  obtain ⟨hactive₁, hfound₁, hon₁, hpub₁⟩ := foldlM_scanInput h₁
  obtain ⟨hactive₂, hpub₂, hpower⟩ := foldlM_scanOutput h₂
  obtain ⟨hestop, hpub₃⟩ := foldlM_scanConfigIoOutput h₃
  have hpub : estops acc.published = [] := by
    rw [hpub₃, hpub₂]
    exact hpub₁
  refine ⟨?_, hpub⟩
  have hactive : acc₂.active = false ↔ Untriggered c ins := by
    rw [← untriggered_iff hbits hins hv, hactive₂, ← Bool.not_eq_true, hactive₁]
    simp
  rw [hestop]
  unfold Scan.estop
  rw [Bool.or_eq_false_iff, hactive]
  apply and_congr_right
  intro _
  rcases hpower with ⟨hfound, -, hnone⟩ | ⟨hfound, hset, s, hs, hname, hbit⟩
  · have hoff : c.hardwareEstopPowerOutput = "" := by
      by_contra hset
      obtain ⟨s, hs, hname⟩ := List.mem_map.mp (c.power_known hset)
      exact hnone hset s hs hname
    have hfound' : acc₂.powerFound = false := hfound.trans hfound₁
    simp [hfound', PowerOn, hoff]
  · have hpoweron : PowerOn c outs ↔ acc₂.powerOn = true := by
      constructor
      · intro hon
        obtain ⟨s', hs', hname', hlevel⟩ := hon hset
        obtain rfl := c.outputs.eq_of_name hs' hs (hname'.trans hname.symm)
        have htrue : bitAt outs s'.bit = some true := (bitAt_eq_some_iff hw).mpr hlevel
        rw [hbit] at htrue
        exact Option.some.inj htrue
      · intro hon _
        rw [hon] at hbit
        exact ⟨s, hs, hname, (bitAt_eq_some_iff hw).mp hbit⟩
    rw [hpoweron, hfound]
    simp

theorem estopValue_append {published more : List Publication} {cl : ModbusTcpClient} {b : Bool}
    (h : estops more = [b]) : estopValue ⟨cl, published ++ more⟩ = some b := by
  simp [estopValue, estops_append, h]

theorem estops_report (hsources : c.estopSources.val ≠ []) (hacc : estops acc.published = []) :
    estops (report c acc) = [acc.estop] := by
  unfold report publishHardwareEstop
  rw [if_neg hsources]
  simp only [estops_append, hacc]
  rfl

/-- Successful reads return 0/1 vectors of the configured sizes. -/
theorem readBlocks_some {x : Exchange × Exchange} {cl cl' : ModbusTcpClient}
    (h : readBlocks c x cl = (some (ins, outs), cl')) :
    (ins.length = c.inputRange.count ∧ ∀ v ∈ ins, v = 0 ∨ v = 1) ∧
      outs.length = c.outputRange.count ∧ ∀ v ∈ outs, v = 0 ∨ v = 1 := by
  have hcount : ∀ r : AddressRange, (UInt16.ofNat r.count).toNat = r.count := by
    intro r
    have hle := r.count_le
    rw [UInt16.toNat_ofNat']
    omega
  unfold readBlocks at h
  split at h
  · cases h
  · rename_i ins' cl₁ hins
    split at h
    · cases h
    · rename_i outs' cl₂ houts
      obtain ⟨hpair, -⟩ := Prod.mk.inj h
      obtain ⟨rfl, rfl⟩ := Prod.mk.inj (Option.some.inj hpair)
      refine ⟨⟨?_, fun v hmem => ModbusTcpClient.readDiscreteInputs_bit hins hmem⟩, ?_,
        fun v hmem => ModbusTcpClient.readDiscreteInputs_bit houts hmem⟩
      · rw [ModbusTcpClient.readDiscreteInputs_length hins, hcount]
      · rw [ModbusTcpClient.readDiscreteInputs_length houts, hcount]

/-- One poll of a usable configuration is defined, and its E-stop value is
what its reads say. -/
theorem poll_estop (hbits : c.BitsInRange) (hsources : c.estopSources.val ≠ [])
    (n : SafetyIONode) (x : Exchange × Exchange) :
    ∃ n', poll c n x = some n' ∧
      (estopValue n' = some false ↔ ∃ ins outs, (readBlocks c x n.client).1 = some (ins, outs) ∧
        Untriggered c ins ∧ PowerOn c outs) ∧
      ((readBlocks c x n.client).1 = none → estopValue n' = some true) := by
  have hlost : estops ([.connected false] ++ publishHardwareEstop c true) = [true] := by
    unfold publishHardwareEstop
    rw [if_neg hsources]
    rfl
  unfold poll
  cases hread : readBlocks c x n.client with
  | mk result cl =>
      cases result with
      | none =>
          refine ⟨_, rfl, ?_, fun _ => estopValue_append hlost⟩
          rw [estopValue_append hlost]
          simp
      | some blocks =>
          obtain ⟨ins, outs⟩ := blocks
          obtain ⟨⟨hins, hv⟩, houts, hw⟩ := readBlocks_some hread
          obtain ⟨acc, hacc⟩ := scanBlocks_isSome hbits hins houts
          obtain ⟨hestop, hpub⟩ := scanBlocks_estop hbits hins hv hw hacc
          refine ⟨⟨cl, n.published ++ report c acc⟩, by simp [hacc], ?_, by simp⟩
          rw [estopValue_append (estops_report hsources hpub)]
          constructor
          · intro hfalse
            exact ⟨ins, outs, rfl, hestop.mp (Option.some.inj hfalse)⟩
          · rintro ⟨ins', outs', hblocks, hlevels⟩
            obtain ⟨rfl, rfl⟩ := Prod.mk.inj (Option.some.inj hblocks)
            rw [hestop.mpr hlevels]

/-- With all bits in range and at least one source, every run of polls
against any network is defined. The E-stop value is on before the first poll;
after a poll it is off exactly if that poll read both blocks, every source is
in its untriggered level and the power output, if set, is on; and it is on
after a poll that failed. -/
theorem unified_estop (c : Configuration) (hbits : c.BitsInRange)
    (hsources : c.estopSources.val ≠ []) :
    estopValue (start c) = some true ∧
      ∀ (polls : List (Exchange × Exchange)) (x : Exchange × Exchange),
        ∃ before after, run (poll c) (start c) polls = some before ∧
          run (poll c) (start c) (polls ++ [x]) = some after ∧
          (estopValue after = some false ↔
            ∃ ins outs, (readBlocks c x before.client).1 = some (ins, outs) ∧
              Untriggered c ins ∧ PowerOn c outs) ∧
          ((readBlocks c x before.client).1 = none → estopValue after = some true) := by
  constructor
  · unfold estopValue start publishHardwareEstop
    rw [if_neg hsources]
    rfl
  · intro polls x
    obtain ⟨before, hbefore⟩ : ∃ n, run (poll c) (start c) polls = some n := by
      generalize start c = n
      induction polls generalizing n with
      | nil => exact ⟨n, rfl⟩
      | cons y polls ih =>
          obtain ⟨n', hn', -⟩ := poll_estop hbits hsources n y
          rw [run_cons, hn']
          exact ih n'
    obtain ⟨after, hafter, hvalue⟩ := poll_estop hbits hsources before x
    refine ⟨before, after, hbefore, ?_, hvalue⟩
    rw [run_append, hbefore]
    simp [hafter]

/-- Both answers arrive: every contact is closed and the traction power is on. -/
def quietExchange : Exchange × Exchange :=
  (⟨true, true, [0, 1, 0, 0, 0, 6, 1, 2, 3, 0xFF, 0xFF, 0x01]⟩,
    ⟨true, true, [0, 2, 0, 0, 0, 4, 1, 2, 1, 0x0F]⟩)

theorem unified_estop_default :
    estopValue (start defaultConfiguration) = some true ∧
      ∃ after, run (poll defaultConfiguration) (start defaultConfiguration) [quietExchange] =
          some after ∧ estopValue after = some false := by
  obtain ⟨hstart, hpolls⟩ := unified_estop defaultConfiguration (by decide) (by decide)
  obtain ⟨before, after, hbefore, hafter, hfalse, -⟩ := hpolls [] quietExchange
  obtain rfl := Option.some.inj hbefore
  refine ⟨hstart, after, hafter, hfalse.mpr ?_⟩
  refine ⟨[1, 1, 1, 1, 1, 1, 1, 1, 1, 1, 1, 1, 1, 1, 1, 1, 1], [1, 1, 1, 1], by decide, ?_, ?_⟩
  · intro name activeLow hsource
    have hmem := mem_of_lookup hsource
    have hval : defaultConfiguration.estopSources.val =
        [("safety_emergency_1b", true), ("safety_emergency_2b", true),
          ("safety_bumper_front", true), ("safety_bumper_rear", true)] := rfl
    rw [hval] at hmem
    simp only [List.mem_cons, List.not_mem_nil, or_false] at hmem
    rcases hmem with h | h | h | h <;> cases h
    · exact ⟨⟨"safety_emergency_1b", 1⟩, by decide, rfl, rfl⟩
    · exact ⟨⟨"safety_emergency_2b", 2⟩, by decide, rfl, rfl⟩
    · exact ⟨⟨"safety_bumper_front", 9⟩, by decide, rfl, rfl⟩
    · exact ⟨⟨"safety_bumper_rear", 10⟩, by decide, rfl, rfl⟩
  · intro _
    exact ⟨⟨"traction_motor_power_on", 3⟩, by decide, rfl, by decide⟩

end PolishingRobot.Safety
