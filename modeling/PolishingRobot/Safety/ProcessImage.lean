import PolishingRobot.Safety.AnswerFraming
import PolishingRobot.Safety.UnifiedEstop

/-!
# From the process image to the topics

The safety controller answers every request from its process image at that
moment. The network may refuse the connection, lose the request, or cut the
answer off. A poll publishes the image of its own two answers, or that there is
none.
-/

namespace PolishingRobot.Safety

open Runs Wire ModbusTcpClient

/-- The discrete inputs of the controller by their address. -/
abbrev ProcessImage := ℕ → Bool

/-- The bits of a block. -/
def imageBits (image : ProcessImage) (r : AddressRange) : List Bool :=
  (List.range r.count).map fun i => image (r.base + i)

/-- One request: whether the connection opens, whether the request leaves, the
image when the controller answers, the exception that it may answer instead, and
how many bytes of the answer arrive. -/
structure Transaction where
  opens : Bool := true
  sends : Bool := true
  image : ProcessImage
  exception : Option UInt8 := none
  arrived : ℕ

namespace Transaction

/-- The PDU of the answer. -/
def body (t : Transaction) (r : AddressRange) : List UInt8 :=
  match t.exception with
  | some code => [0x82, code]
  | none => answerBody (packBits (imageBits t.image r))

def exchange (t : Transaction) (id : UInt16) (unit : UInt8) (r : AddressRange) : Exchange where
  opens := t.opens
  sends := t.sends
  arrives := (frame id unit (t.body r)).take t.arrived

/-- The whole image arrives: 9 bytes in front of the bits. -/
def Answers (t : Transaction) (connected : Bool) (r : AddressRange) : Prop :=
  (connected = true ∨ t.opens = true) ∧ t.sends = true ∧ t.exception = none ∧
    9 + (r.count + 7) / 8 ≤ t.arrived

instance (t : Transaction) (connected : Bool) (r : AddressRange) :
    Decidable (t.Answers connected r) :=
  inferInstanceAs (Decidable (_ ∧ _ ∧ _ ∧ _))

end Transaction

variable (c : Configuration)

/-- A poll of the controller; the second request takes the next transaction
identifier. -/
def pollDevice (n : SafetyIONode) (t : Transaction × Transaction) : Option SafetyIONode :=
  let cl := n.client
  poll c n (t.1.exchange (cl.transactionId + 1) cl.unitId c.inputRange,
    t.2.exchange (cl.transactionId + 2) cl.unitId c.outputRange)

/-- The level of a signal in the image of its block. -/
def level (image : ProcessImage) (r : AddressRange) (s : Signal) : Bool := image (r.base + s.bit)

/-- A source in its triggered level, or the traction power off. -/
def imageEstop (ins outs : ProcessImage) : Bool :=
  (c.inputs.signals.any fun s =>
    match c.estopSources.val.lookup s.name with
    | some activeLow => level ins c.inputRange s != activeLow
    | none => false) ||
  c.outputs.signals.any fun s =>
    c.hardwareEstopPowerOutput ≠ "" && s.name = c.hardwareEstopPowerOutput &&
      !level outs c.outputRange s

def signalTexts (image : ProcessImage) (r : AddressRange) (signals : List Signal) : String :=
  String.join (signals.map fun s => signalText s.name (level image r s))

def imageState (ins outs : ProcessImage) : String :=
  "inputs" ++ signalTexts ins c.inputRange c.inputs.signals ++ "; outputs" ++
    signalTexts outs c.outputRange c.outputs.signals ++
    signalTexts ins c.inputRange c.configIoOutputs.signals

/-- The report about the images of the two blocks. -/
def imageReport (ins outs : ProcessImage) : List Publication :=
  [.connected true] ++
    (c.inputs.signals.map fun s => .input s.name (level ins c.inputRange s)) ++
    (c.outputs.signals.map fun s => .output s.name (level outs c.outputRange s)) ++
    (c.configIoOutputs.signals.map fun s => .output s.name (level ins c.inputRange s)) ++
    publishHardwareEstop c (imageEstop c ins outs) ++
    [.stateAll (if c.estopSources.val = [] then imageState c ins outs
      else imageState c ins outs ++ "; hardware_estop=" ++
        (if imageEstop c ins outs then "1" else "0"))]

/-- Both answers or none: a poll says what the controller showed it. -/
def Reports (n : SafetyIONode) (t : Transaction × Transaction) (n' : SafetyIONode) : Prop :=
  n'.published = n.published ++
    if t.1.Answers n.client.socket.isSome c.inputRange ∧ t.2.Answers true c.outputRange then
      imageReport c t.1.image t.2.image
    else [.connected false] ++ publishHardwareEstop c true

variable {c} {cl : ModbusTcpClient} {r : AddressRange} {t : Transaction}

/-- A frame cut short is none. -/
theorem frame_of_take {id : UInt16} {unit : UInt8} {body body' rest : List UInt8} {k : ℕ}
    (hbody : Framed body) (hbody' : Framed body')
    (h : (frame id unit body).take k = frame id unit body' ++ rest) :
    body' = body ∧ rest = [] ∧ (frame id unit body).length ≤ k := by
  have hwhole : frame id unit body' ++ (rest ++ (frame id unit body).drop k) =
      frame id unit body ++ [] := by
    rw [← List.append_assoc, ← h, List.take_append_drop, List.append_nil]
  have hfirst : receiveFrame id unit (frame id unit body ++ []) =
      some (body', rest ++ (frame id unit body).drop k) :=
    receiveFrame_eq_some.mpr ⟨hbody', hwhole.symm⟩
  have hsecond : receiveFrame id unit (frame id unit body ++ []) = some (body, []) :=
    receiveFrame_eq_some.mpr ⟨hbody, rfl⟩
  obtain ⟨hsame, hrest⟩ := Prod.mk.inj (Option.some.inj (hfirst.symm.trans hsecond))
  obtain ⟨hnone, hdrop⟩ := List.append_eq_nil_iff.mp hrest
  exact ⟨hsame, hnone, List.drop_eq_nil_iff.mp hdrop⟩

theorem count_toNat (r : AddressRange) : (UInt16.ofNat r.count).toNat = r.count := by
  have hle := r.count_le
  rw [UInt16.toNat_ofNat']
  omega

theorem count_valid (r : AddressRange) :
    1 ≤ (UInt16.ofNat r.count).toNat ∧ (UInt16.ofNat r.count).toNat ≤ 2000 := by
  rw [count_toNat]
  exact ⟨r.count_pos, r.count_le⟩

theorem packBits_imageBits_length (image : ProcessImage) (r : AddressRange) :
    (packBits (imageBits image r)).length = expectedBytes (UInt16.ofNat r.count) := by
  rw [packBits_length, imageBits, List.length_map, List.length_range, expectedBytes, count_toNat]

theorem Transaction.framed_body (t : Transaction) (r : AddressRange) : Framed (t.body r) := by
  unfold Transaction.body
  split
  · exact ⟨by simp, by simp⟩
  · exact framed_answerBody (count_valid r).2 (packBits_imageBits_length t.image r)

/-- What is pending on a connection without unread bytes. -/
theorem pending_exchange {id : UInt16} {unit : UInt8}
    (hsocket : cl.socket = none ∨ cl.socket = some []) :
    cl.pending (t.exchange id unit r) =
      if cl.socket.isSome = true ∨ t.opens = true then
        some ((frame id unit (t.body r)).take t.arrived)
      else none := by
  rcases hsocket with hsocket | hsocket
  · by_cases hopens : t.opens = true <;> simp [pending, Transaction.exchange, hsocket, hopens]
  · simp [pending, Transaction.exchange, hsocket]

/-- A whole answer is read. -/
theorem read_of_answers (hsocket : cl.socket = none ∨ cl.socket = some [])
    (h : t.Answers cl.socket.isSome r) :
    cl.readDiscreteInputs (t.exchange (cl.transactionId + 1) cl.unitId r) (UInt16.ofNat r.base)
        (UInt16.ofNat r.count) =
      (some ((imageBits t.image r).map bitValue),
        { cl.requested (readPdu (UInt16.ofNat r.base) (UInt16.ofNat r.count)) with
          socket := some [] }) := by
  obtain ⟨hopen, hsends, hexception, harrived⟩ := h
  have hbits : (imageBits t.image r).length = (UInt16.ofNat r.count).toNat := by
    rw [imageBits, List.length_map, List.length_range, count_toNat]
  have hbody : t.body r = answerBody (packBits (imageBits t.image r)) := by
    rw [Transaction.body, hexception]
  have hlength := packBits_imageBits_length t.image r
  have hwhole : (frame (cl.transactionId + 1) cl.unitId (t.body r)).length ≤ t.arrived := by
    rw [hbody, frame, List.length_append, mbapHeader_length, answerBody, List.length_cons,
      List.length_cons, hlength, expectedBytes, count_toNat]
    omega
  have hanswered : Answered (t.exchange (cl.transactionId + 1) cl.unitId r) (UInt16.ofNat r.count)
      cl (packBits (imageBits t.image r)) [] := by
    refine ⟨hlength, hsends, framed_answerBody (count_valid r).2 hlength, ?_⟩
    rw [pending_exchange hsocket, if_pos hopen, List.take_of_length_le hwhole, hbody,
      List.append_nil]
  rw [readDiscreteInputs_of_answered (count_valid r) hanswered, unpackBits_answerBody]
  congr 2
  exact map_packedBit_packBits hbits

/-- Anything else is no answer. -/
theorem read_of_not_answers (hsocket : cl.socket = none ∨ cl.socket = some [])
    (h : ¬ t.Answers cl.socket.isSome r) :
    ∃ cl', cl.readDiscreteInputs (t.exchange (cl.transactionId + 1) cl.unitId r)
      (UInt16.ofNat r.base) (UInt16.ofNat r.count) = (none, cl') := by
  have hend := readDiscreteInputs_end (count_valid r)
    (t.exchange (cl.transactionId + 1) cl.unitId r) (UInt16.ofNat r.base) cl
  generalize cl.readDiscreteInputs (t.exchange (cl.transactionId + 1) cl.unitId r)
    (UInt16.ofNat r.base) (UInt16.ofNat r.count) = result at hend ⊢
  cases hend with
  | answered hanswered =>
      obtain ⟨hdata, hsends, hframed, hpending⟩ := hanswered
      rw [pending_exchange hsocket] at hpending
      obtain ⟨hopen, hcut⟩ := Option.ite_none_right_eq_some.mp hpending
      obtain ⟨hbody, -, hwhole⟩ := frame_of_take (t.framed_body r) hframed (Option.some.inj hcut)
      refine absurd ⟨hopen, hsends, ?_, ?_⟩ h
      · -- An exception starts with another function code.
        cases hexception : t.exception with
        | none => rfl
        | some code =>
            rw [Transaction.body, hexception] at hbody
            cases hbody
      · rw [← hbody, frame, List.length_append, mbapHeader_length, answerBody, List.length_cons,
          List.length_cons, hdata, expectedBytes, count_toNat] at hwhole
        omega
  | _ => exact ⟨_, rfl⟩

/-- Both reads of a poll. -/
theorem readBlocks_device {t : Transaction × Transaction}
    (hsocket : cl.socket = none ∨ cl.socket = some []) :
    ∃ cl', (cl'.socket = none ∨ cl'.socket = some []) ∧
      readBlocks c (t.1.exchange (cl.transactionId + 1) cl.unitId c.inputRange,
          t.2.exchange (cl.transactionId + 2) cl.unitId c.outputRange) cl =
        (if t.1.Answers cl.socket.isSome c.inputRange ∧ t.2.Answers true c.outputRange then
            some ((imageBits t.1.image c.inputRange).map bitValue,
              (imageBits t.2.image c.outputRange).map bitValue)
          else none, cl') := by
  by_cases hfirst : t.1.Answers cl.socket.isSome c.inputRange
  · have hread := read_of_answers hsocket hfirst
    generalize hcl₁ : { cl.requested (readPdu (UInt16.ofNat c.inputRange.base)
      (UInt16.ofNat c.inputRange.count)) with socket := some [] } = cl₁ at hread
    have hopen : cl₁.socket = some [] := by rw [← hcl₁]
    have hunit : cl₁.unitId = cl.unitId := by
      rw [← hcl₁]
      rfl
    have hid : cl₁.transactionId + 1 = cl.transactionId + 2 := by
      rw [← hcl₁]
      exact UInt16.add_assoc _ _ _
    by_cases hsecond : t.2.Answers true c.outputRange
    · have hsecond' : t.2.Answers cl₁.socket.isSome c.outputRange := by rwa [hopen]
      have hread' := read_of_answers (.inr hopen) hsecond'
      rw [hid, hunit] at hread'
      generalize hcl₂ : { cl₁.requested (readPdu (UInt16.ofNat c.outputRange.base)
        (UInt16.ofNat c.outputRange.count)) with socket := some [] } = cl₂ at hread'
      refine ⟨cl₂, .inr (by rw [← hcl₂]), ?_⟩
      rw [readBlocks, hread]
      dsimp only
      rw [hread', if_pos ⟨hfirst, hsecond⟩]
    · have hsecond' : ¬ t.2.Answers cl₁.socket.isSome c.outputRange := by rwa [hopen]
      obtain ⟨cl₂, hread'⟩ := read_of_not_answers (.inr hopen) hsecond'
      rw [hid, hunit] at hread'
      refine ⟨cl₂.closeSocket, .inl rfl, ?_⟩
      rw [readBlocks, hread]
      dsimp only
      rw [hread', if_neg fun hboth => hsecond hboth.2]
  · obtain ⟨cl₁, hread⟩ := read_of_not_answers hsocket hfirst
    refine ⟨cl₁.closeSocket, .inl rfl, ?_⟩
    rw [readBlocks, hread, if_neg fun hboth => hfirst hboth.1]

theorem bitAt_imageBits (image : ProcessImage) {s : Signal} (h : s.bit < r.count) :
    bitAt ((imageBits image r).map bitValue) s.bit = some (level image r s) := by
  have hlength : s.bit < ((imageBits image r).map bitValue).length := by
    rwa [List.length_map, imageBits, List.length_map, List.length_range]
  rw [bitAt, List.getElem?_eq_getElem hlength]
  simp only [imageBits, List.map_map, List.getElem_map, List.getElem_range, Function.comp_apply,
    Option.map_some, level]
  cases image (r.base + s.bit) <;> rfl

theorem imageBits_bit (image : ProcessImage) :
    ∀ v ∈ (imageBits image r).map bitValue, v = 0 ∨ v = 1 := by
  intro v hv
  obtain ⟨b, -, rfl⟩ := List.mem_map.mp hv
  cases b
  · exact .inl rfl
  · exact .inr rfl

/-- A loop over signals publishes their levels in order. -/
theorem foldlM_scan {f : Scan → Signal → Option Scan} (topic : String → Bool → Publication)
    {values : List UInt8} {image : ProcessImage} {signals : List Signal} {acc acc' : Scan}
    (hf : ∀ acc s acc', f acc s = some acc' → ∃ b, bitAt values s.bit = some b ∧
      acc'.published = acc.published ++ [topic s.name b] ∧
      acc'.state = acc.state ++ signalText s.name b)
    (hlevels : ∀ s ∈ signals, bitAt values s.bit = some (level image r s))
    (h : signals.foldlM f acc = some acc') :
    acc'.published = acc.published ++ signals.map (fun s => topic s.name (level image r s)) ∧
      acc'.state = acc.state ++ signalTexts image r signals := by
  induction signals generalizing acc with
  | nil =>
      obtain rfl : acc = acc' := Option.some.inj h
      simp [signalTexts]
  | cons s signals ih =>
      rw [List.foldlM_cons] at h
      obtain ⟨acc₁, h₁, hrest⟩ := Option.bind_eq_some_iff.mp h
      obtain ⟨b, hb, hpublished, hstate⟩ := hf acc s acc₁ h₁
      rw [hlevels s (by simp)] at hb
      obtain rfl := Option.some.inj hb
      obtain ⟨hpublished', hstate'⟩ := ih (fun s' hs' => hlevels s' (by simp [hs'])) hrest
      constructor
      · rw [hpublished', hpublished]
        simp
      · rw [hstate', hstate, String.append_assoc]
        simp [signalTexts]

/-- The levels of the sources and of the power output decide the E-stop. -/
theorem imageEstop_eq_false_iff (hbits : c.BitsInRange) (ins outs : ProcessImage) :
    imageEstop c ins outs = false ↔
      Untriggered c ((imageBits ins c.inputRange).map bitValue) ∧
        PowerOn c ((imageBits outs c.outputRange).map bitValue) := by
  obtain ⟨hinputs, houtputs, -⟩ := hbits
  have hins : ∀ s ∈ c.inputs.signals, ∀ b : Bool,
      ((imageBits ins c.inputRange).map bitValue)[s.bit]? = some (if b then 1 else 0) ↔
        level ins c.inputRange s = b := by
    intro s hs b
    rw [← bitAt_eq_some_iff (imageBits_bit ins), bitAt_imageBits ins (hinputs s hs),
      Option.some_inj]
  have houts : ∀ s ∈ c.outputs.signals,
      ((imageBits outs c.outputRange).map bitValue)[s.bit]? = some 1 ↔
        level outs c.outputRange s = true := by
    intro s hs
    have hlevel : bitAt ((imageBits outs c.outputRange).map bitValue) s.bit = some true ↔
        ((imageBits outs c.outputRange).map bitValue)[s.bit]? = some 1 :=
      bitAt_eq_some_iff (imageBits_bit outs)
    rw [← hlevel, bitAt_imageBits outs (houtputs s hs), Option.some_inj]
  unfold imageEstop
  rw [Bool.or_eq_false_iff]
  apply and_congr
  · rw [List.any_eq_false]
    constructor
    · intro hquiet name activeLow hsource
      have hknown : name ∈ c.inputs.names := c.estopSources.property _ (mem_of_lookup hsource)
      obtain ⟨s, hs, rfl⟩ := List.mem_map.mp hknown
      have hlevel := hquiet s hs
      rw [hsource] at hlevel
      exact ⟨s, hs, rfl, (hins s hs activeLow).mpr (by simpa using hlevel)⟩
    · intro hlevels s hs
      cases hsource : c.estopSources.val.lookup s.name with
      | none => simp
      | some activeLow =>
          obtain ⟨s', hs', hname, hlevel⟩ := hlevels s.name activeLow hsource
          obtain rfl := c.inputs.eq_of_name hs' hs hname
          simp [(hins s' hs activeLow).mp hlevel]
  · rw [List.any_eq_false]
    constructor
    · intro hon hset
      obtain ⟨s, hs, hname⟩ := List.mem_map.mp (c.power_known hset)
      have hlevel := hon s hs
      refine ⟨s, hs, hname, (houts s hs).mpr ?_⟩
      simpa [hset, hname] using hlevel
    · intro hon s hs
      by_cases hpower : c.hardwareEstopPowerOutput ≠ "" ∧ s.name = c.hardwareEstopPowerOutput
      · obtain ⟨s', hs', hname, hlevel⟩ := hon hpower.1
        obtain rfl := c.outputs.eq_of_name hs' hs (hname.trans hpower.2.symm)
        simp [(houts s' hs).mp hlevel]
      · simp only [Bool.not_eq_true, Bool.and_eq_false_iff, decide_eq_false_iff_not]
        exact .inl (not_and_or.mp hpower)

/-- Two answers make the report about their images. -/
theorem report_image (hbits : c.BitsInRange) {ins outs : ProcessImage} {acc : Scan}
    (h : scanBlocks c ((imageBits ins c.inputRange).map bitValue)
      ((imageBits outs c.outputRange).map bitValue) = some acc) :
    report c acc = imageReport c ins outs := by
  have hlength : ∀ (image : ProcessImage) (r : AddressRange),
      ((imageBits image r).map bitValue).length = r.count := by
    intro image r
    rw [List.length_map, imageBits, List.length_map, List.length_range]
  obtain ⟨hestop, -⟩ := scanBlocks_estop hbits (hlength ins _) (imageBits_bit ins)
    (imageBits_bit outs) h
  have hactive : acc.estop = imageEstop c ins outs := by
    rw [← imageEstop_eq_false_iff hbits] at hestop
    cases hacc : acc.estop with
    | false => exact (hestop.mp hacc).symm
    | true =>
        rw [hacc] at hestop
        exact (Bool.eq_true_of_not_eq_false fun hquiet => by simp [hquiet] at hestop).symm
  obtain ⟨hinputs, houtputs, hconfig⟩ := hbits
  obtain ⟨acc₁, h₁, hrest⟩ := Option.bind_eq_some_iff.mp h
  obtain ⟨acc₂, h₂, h₃⟩ := Option.bind_eq_some_iff.mp hrest
  obtain ⟨hpublished₁, hstate₁⟩ := foldlM_scan .input (fun acc s acc' hscan => by
    obtain ⟨b, hb, hacc⟩ := Option.bind_eq_some_iff.mp hscan
    obtain rfl := Option.some.inj hacc
    exact ⟨b, hb, rfl, rfl⟩) (fun s hs => bitAt_imageBits ins (hinputs s hs)) h₁
  obtain ⟨hpublished₂, hstate₂⟩ := foldlM_scan .output (fun acc s acc' hscan => by
    obtain ⟨b, hb, hacc⟩ := Option.bind_eq_some_iff.mp hscan
    obtain rfl := Option.some.inj hacc
    exact ⟨b, hb, rfl, rfl⟩) (fun s hs => bitAt_imageBits outs (houtputs s hs)) h₂
  obtain ⟨hpublished₃, hstate₃⟩ := foldlM_scan .output (fun acc s acc' hscan => by
    obtain ⟨b, hb, hacc⟩ := Option.bind_eq_some_iff.mp hscan
    obtain rfl := Option.some.inj hacc
    exact ⟨b, hb, rfl, rfl⟩) (fun s hs => bitAt_imageBits ins (hconfig s hs)) h₃
  have hstate : acc.state = imageState c ins outs := by
    rw [hstate₃, hstate₂, hstate₁, imageState]
  rw [report, imageReport, hactive, hstate, hpublished₃, hpublished₂, hpublished₁]
  simp only [List.nil_append, List.append_assoc]

theorem pollDevice_reports (hbits : c.BitsInRange) {n : SafetyIONode}
    (hsocket : n.client.socket = none ∨ n.client.socket = some []) (t : Transaction × Transaction) :
    ∃ n', pollDevice c n t = some n' ∧ Reports c n t n' ∧
      (n'.client.socket = none ∨ n'.client.socket = some []) := by
  obtain ⟨cl', hsocket', hread⟩ := readBlocks_device (c := c) (t := t) hsocket
  unfold pollDevice poll Reports
  dsimp only
  rw [hread]
  by_cases hanswers :
    t.1.Answers n.client.socket.isSome c.inputRange ∧ t.2.Answers true c.outputRange
  · have hlength : ∀ (image : ProcessImage) (r : AddressRange),
        ((imageBits image r).map bitValue).length = r.count := by
      intro image r
      rw [List.length_map, imageBits, List.length_map, List.length_range]
    obtain ⟨acc, hacc⟩ := scanBlocks_isSome hbits (hlength t.1.image _) (hlength t.2.image _)
    refine ⟨⟨cl', n.published ++ report c acc⟩, ?_, ?_, hsocket'⟩
    · simp only [if_pos hanswers, hacc, Option.map_some]
    · rw [if_pos hanswers, ← report_image hbits hacc]
  · refine ⟨⟨cl', n.published ++ ([.connected false] ++ publishHardwareEstop c true)⟩, ?_, ?_,
      hsocket'⟩
    · simp only [if_neg hanswers]
    · rw [if_neg hanswers]

/-- In every run against the controller, however the network cuts connections
and answers, a poll publishes the process image of its own two answers if both
arrive whole, and otherwise that there is no connection. -/
theorem publishes_process_image (c : Configuration) (hbits : c.BitsInRange)
    (ts : List (Transaction × Transaction)) :
    (run (pollDevice c) (start c) ts).isSome = true ∧
      Along (pollDevice c) (Reports c) (start c) ts := by
  have hstart : (start c).client.socket = none ∨ (start c).client.socket = some [] := .inl rfl
  generalize start c = n at hstart
  induction ts generalizing n with
  | nil => exact ⟨rfl, trivial⟩
  | cons t ts ih =>
      obtain ⟨n', hpoll, hreports, hsocket⟩ := pollDevice_reports hbits hstart t
      obtain ⟨hrun, halong⟩ := ih n' hsocket
      refine ⟨by rw [run_cons, hpoll]; exact hrun, ?_⟩
      intro n₁ hn₁
      obtain rfl : n' = n₁ := Option.some.inj (hpoll.symm.trans hn₁)
      exact ⟨hreports, halong⟩

/-- The defaults: two whole answers, then one that is cut off. -/
theorem publishes_process_image_default :
    let quiet : ProcessImage := fun _ => true
    let ts : List (Transaction × Transaction) :=
      [({ image := quiet, arrived := 12 }, { image := quiet, arrived := 10 }),
        ({ image := quiet, arrived := 11 }, { image := quiet, arrived := 10 })]
    (run (pollDevice defaultConfiguration) (start defaultConfiguration) ts).isSome = true ∧
      Along (pollDevice defaultConfiguration) (Reports defaultConfiguration)
        (start defaultConfiguration) ts :=
  publishes_process_image defaultConfiguration (by decide) _

end PolishingRobot.Safety
