import PolishingRobot.Crevis.Node

/-!
# The shadow of the outputs

A register write carries sixteen outputs, of which one was commanded. The other
fifteen come from the shadow, which is right as long as it was read on the
connection that the write uses: on a live connection only this node changes the
outputs. A failed read of the poll closes the connection and keeps the shadow.
-/

namespace PolishingRobot.Crevis

open Runs

section Bits

variable {v : BitVec 32} {outputs : BitVec 16} {i : Nat}

theorem getLsbD_one_shiftLeft (k : Nat) (hi : i < 32) :
    (1#32 <<< k).getLsbD i = decide (i = k) := by
  rw [BitVec.getLsbD_shiftLeft, BitVec.getLsbD_one]
  by_cases hik : i = k
  · subst hik
    simp [hi]
  · by_cases hlt : i < k
    · simp [hik, hlt]
    · have hsub : i - k ≠ 0 := by omega
      simp [hik, hsub]

theorem setBit_getLsbD (bit : Nat) (on : Bool) (hi : i < 32) :
    (setBit v bit on).getLsbD i = if i = bit then on else v.getLsbD i := by
  cases on with
  | true =>
      rw [setBit, if_pos rfl, BitVec.getLsbD_or, getLsbD_one_shiftLeft bit hi]
      by_cases hbit : i = bit <;> simp [hbit]
  | false =>
      rw [setBit, if_neg Bool.false_ne_true, BitVec.getLsbD_and, BitVec.getLsbD_not,
        getLsbD_one_shiftLeft bit hi]
      by_cases hbit : i = bit <;> simp [hbit, hi]

/-- The loop that collects coils, from a position on. -/
theorem getLsbD_foldl_coils (coils : List Bool) (k : Nat) (hi : i < 32) :
    ((coils.zipIdx k).foldl (fun v p => if p.1 then v ||| 1#32 <<< p.2 else v) v).getLsbD i =
      (v.getLsbD i || (decide (k ≤ i) && coils.getD (i - k) false)) := by
  induction coils generalizing v k with
  | nil => simp
  | cons coil coils ih =>
      have hhead : (if coil then v ||| 1#32 <<< k else v).getLsbD i =
          (v.getLsbD i || (decide (i = k) && coil)) := by
        cases coil with
        | true => rw [if_pos rfl, BitVec.getLsbD_or, getLsbD_one_shiftLeft k hi, Bool.and_true]
        | false => simp
      rw [List.zipIdx_cons, List.foldl_cons, ih, hhead]
      rcases lt_trichotomy i k with hlt | rfl | hgt
      · have hne : i ≠ k := by omega
        have hout : ¬ k ≤ i := by omega
        have hout' : ¬ k + 1 ≤ i := by omega
        simp [hne, hout, hout']
      · simp
      · have hne : i ≠ k := by omega
        have hin : k ≤ i := by omega
        have hsub : i - k = i - (k + 1) + 1 := by omega
        have hin' : k + 1 ≤ i := hgt
        simp [hne, hin, hin', hsub]

theorem shadowOf_getLsbD (coils : List Bool) (hi : i < 16) :
    (shadowOf coils).getLsbD i = coils.getD i false := by
  rw [shadowOf, getLsbD_foldl_coils _ 0 (by omega)]
  simp [List.getD_eq_getElem?_getD, hi]

theorem coilsRead_getD (qty : UInt16) (beyond : List Bool) (hqty : 16 ≤ qty.toNat) (hi : i < 16) :
    (coilsRead outputs qty beyond).getD i false = outputs.getLsbD i := by
  have hin : i < qty.toNat := by omega
  rw [coilsRead, List.getD_eq_getElem?_getD, List.getElem?_take, if_pos hin,
    List.getElem?_append_left (by simpa using hi), List.getElem?_ofFn, dif_pos hi]
  rfl

theorem clearBits_getLsbD {bits : List Int} (hbits : ∀ b ∈ bits, 0 ≤ b ∧ b < 32) (v : BitVec 32) :
    ∃ u, clearBits bits (some v) = some u ∧
      ∀ i < 16, u.getLsbD i = if (i : Int) ∈ bits then false else v.getLsbD i := by
  induction bits generalizing v with
  | nil => exact ⟨v, rfl, by simp⟩
  | cons b bits ih =>
      have hb := hbits b (by simp)
      obtain ⟨u, hu, hbit⟩ := ih (fun b hb => hbits b (by simp [hb])) (setBit v b.toNat false)
      refine ⟨u, ?_, ?_⟩
      · rw [clearBits, List.foldl_cons, Option.bind_some, if_pos hb]
        exact hu
      · intro i hi
        have hcast : i = b.toNat ↔ (i : Int) = b := by omega
        rw [hbit i hi, setBit_getLsbD b.toNat false (by omega)]
        by_cases hmem : (i : Int) ∈ bits
        · simp [hmem]
        · by_cases hhead : (i : Int) = b <;> simp [hmem, hhead, hcast]

end Bits

variable {c : Config} {s : State} {l : Label}

/-- What the step does, if it is a transaction. -/
def transacted (s : State) : Label → Option Transacted
  | .transaction o => transact s.link o
  | _ => none

/-- The coils that the step reads. -/
def read (c : Config) (s : State) : Label → Option (List Bool)
  | .transaction o => s.answer c o
  | _ => none

/-- Whether the last coils were read on the connection that is still open here. -/
def noteRead (c : Config) (s : State) (l : Label) (current : Bool) : Bool :=
  if (read c s l).isSome then true
  else if (transacted s l).any fun t => t.link = .closed then false
  else current

/-- The node and its device, with the history of the shadow. -/
abbrev Observed := State × Bool

def observedStep (c : Config) : Observed → Label → Option Observed :=
  observe (step c) (noteRead c)

/-- The step starts a command or the shutdown. -/
def Label.writes : Label → Bool
  | .led _ _ | .charging _ | .shutdown => true
  | _ => false

/-- A command or a shutdown that finds the shadow valid finds it read on the
connection that is still open. -/
def CurrentShadow (w : Observed) (l : Label) (_ : Observed) : Prop :=
  l.writes = true → w.1.outShadowValid = true → w.2 = true

instance (w : Observed) (l : Label) (w' : Observed) : Decidable (CurrentShadow w l w') :=
  inferInstanceAs (Decidable (_ → _))

/-- An output after a register write: as commanded, or as it was. -/
def Purpose.wanted (c : Config) (outputs : BitVec 16) (i : Nat) : Purpose → Bool
  | .command bit on => if i = bit then on else outputs.getLsbD i
  | .shutdown => if (i : Int) ∈ c.shutdownBits then false else outputs.getLsbD i

/-- A register write that the device takes changes what was commanded alone. -/
def ChangesOnlyCommanded (c : Config) (w : Observed) (l : Label) (_ : Observed) : Prop :=
  ∀ p t, w.1.pc = .writeRegister p → transacted w.1 l = some t → t.acted = true →
    ∃ value, w.1.registerValue = some value ∧
      ∀ i < 16, value.getLsbD i = p.wanted c w.1.outputs i

/-- The shadow is defined, and its first sixteen bits are these. -/
def State.Shadows (s : State) (bits : Nat → Bool) : Prop :=
  ∃ v, s.outShadow = some v ∧ ∀ i < 16, v.getLsbD i = bits i

/-- A shadow read on the live connection shows the outputs. -/
def Mirrors (w : Observed) : Prop :=
  w.1.outShadowValid = true → w.2 = true → w.1.link = .live → w.1.Shadows w.1.outputs.getLsbD

/-- Between transactions the shadow mirrors the outputs; before a write it shows
what they shall be. -/
def ShadowInvariant (c : Config) (w : Observed) : Prop :=
  w.1.pc ≠ .done →
    (w.2 = true → w.1.link ≠ .closed) ∧
    match w.1.pc with
    | .writeRegister p =>
        w.2 = true ∧ (w.1.link = .live → w.1.Shadows fun i => p.wanted c w.1.outputs i)
    | .writeCoil _ _ | .shutdownCoils _ _ => False
    | .pollOpen => w.1.link = .closed
    | .idle | .sync _ | .pollCoils | .pollRegs _ => Mirrors w
    | .done => True

section Transactions

variable {o : Outcome} {t : Transacted} {link : Link}

/-- A transaction closes the socket and fails, or leaves a live connection; on a
dead one it fails without effect. -/
theorem transact_cases (h : transact link o = some t) :
    (t.link = .closed ∧ t.ok = false ∧ (∀ beyond, o ≠ .answered beyond) ∧
        (link = .dead → t.acted = false)) ∨
      (t.link = .live ∧ link ≠ .dead ∧ (t.ok = true → t.acted = true)) := by
  cases link with
  | dead =>
      cases o with
      | broken acted =>
          cases acted with
          | false =>
              obtain rfl := Option.some.inj h
              exact .inl ⟨rfl, rfl, nofun, fun _ => rfl⟩
          | true => cases h
      | _ => cases h
  | closed =>
      cases o with
      | unreachable | broken _ =>
          obtain rfl := Option.some.inj h
          exact .inl ⟨rfl, rfl, nofun, nofun⟩
      | refused _ | answered _ =>
          obtain rfl := Option.some.inj h
          exact .inr ⟨rfl, nofun, by simp⟩
  | live =>
      cases o with
      | unreachable => cases h
      | broken _ =>
          obtain rfl := Option.some.inj h
          exact .inl ⟨rfl, rfl, nofun, nofun⟩
      | refused _ | answered _ =>
          obtain rfl := Option.some.inj h
          exact .inr ⟨rfl, nofun, by simp⟩

/-- The device acts on no request over a dead connection. -/
theorem not_dead_of_acted (h : transact link o = some t) (hacted : t.acted = true) :
    link ≠ .dead := by
  rcases transact_cases h with ⟨-, -, -, hdead⟩ | ⟨-, hdead, -⟩
  · intro hlink
    rw [hdead hlink] at hacted
    cases hacted
  · exact hdead

theorem acted_of_ok (h : transact link o = some t) (hok : t.ok = true) : t.acted = true := by
  rcases transact_cases h with ⟨-, hfailed, -⟩ | ⟨-, -, hacted⟩
  · rw [hfailed] at hok
    cases hok
  · exact hacted hok

theorem live_of_not_dead (hclosed : link ≠ .closed) (hdead : link ≠ .dead) : link = .live := by
  cases link with
  | closed => exact absurd rfl hclosed
  | live => rfl
  | dead => exact absurd rfl hdead

/-- Coils are read by a complete answer on a live connection. -/
theorem answer_eq_some {coils : List Bool} (h : s.answer c o = some coils) :
    ∃ addr qty beyond, s.request c = some (.readCoils addr qty) ∧ o = .answered beyond ∧
      coils = coilsRead s.outputs qty beyond := by
  unfold State.answer at h
  split at h
  · rename_i addr qty beyond hrequest
    exact ⟨addr, qty, beyond, hrequest, rfl, (Option.some.inj h).symm⟩
  · cases h

end Transactions

section Step

theorem shadows_of_coils {qty : UInt16} (hqty : 16 ≤ qty.toNat) (s : State) (beyond : List Bool) :
    (s.setShadow (coilsRead s.outputs qty beyond)).Shadows s.outputs.getLsbD := by
  refine ⟨_, rfl, ?_⟩
  intro i hi
  rw [shadowOf_getLsbD _ hi, coilsRead_getD qty beyond hqty hi]

/-- Before the write the shadow shows what the outputs shall be. -/
theorem prepare_invariant (hbits : ∀ b ∈ c.shutdownBits, 0 ≤ b ∧ b < 32) (p : Purpose)
    (hlink : s.link ≠ .closed) (hshadow : s.link = .live → s.Shadows s.outputs.getLsbD) :
    ShadowInvariant c (s.prepare c p, true) := by
  intro _
  cases p with
  | command bit on =>
      refine ⟨fun _ => hlink, rfl, ?_⟩
      intro hlive
      obtain ⟨v, hv, hmirror⟩ := hshadow hlive
      refine ⟨setBit v bit on, congrArg (Option.map fun v => setBit v bit on) hv, ?_⟩
      intro i hi
      rw [setBit_getLsbD bit on (by omega), hmirror i hi]
      rfl
  | shutdown =>
      refine ⟨fun _ => hlink, rfl, ?_⟩
      intro hlive
      obtain ⟨v, hv, hmirror⟩ := hshadow hlive
      obtain ⟨u, hu, hclear⟩ := clearBits_getLsbD hbits v
      refine ⟨u, (congrArg (clearBits c.shutdownBits) hv).trans hu, ?_⟩
      intro i hi
      rw [hclear i hi, hmirror i hi]
      rfl

theorem ShadowInvariant.before_write {current : Bool} {p : Purpose}
    (hinv : ShadowInvariant c (s, current)) (hpc : s.pc = .writeRegister p) :
    (current = true → s.link ≠ .closed) ∧ current = true ∧
      (s.link = .live → s.Shadows fun i => p.wanted c s.outputs i) := by
  simpa only [hpc] using hinv (by simp [hpc])

theorem close_invariant (s : State) (current : Bool) : ShadowInvariant c (s.close, current) :=
  fun hdone => absurd rfl hdone

variable {current current' : Bool}

/-- A current shadow is used, an invalid one is read first. -/
theorem use_invariant (hpc : s.pc = .idle) (hinv : ShadowInvariant c (s, current))
    (hbits : ∀ b ∈ c.shutdownBits, 0 ≤ b ∧ b < 32)
    (hcurrent : s.outShadowValid = true → current = true) (p : Purpose) :
    ShadowInvariant c (if s.outShadowValid then s.prepare c p else { s with pc := .sync p },
      current) := by
  have hidle := hinv (by simp [hpc])
  simp only [hpc] at hidle
  by_cases hvalid : s.outShadowValid = true
  · rw [if_pos hvalid]
    obtain rfl := hcurrent hvalid
    exact prepare_invariant hbits p (hidle.1 rfl) (hidle.2 hvalid rfl)
  · rw [if_neg hvalid]
    intro _
    exact ⟨hidle.1, fun hvalid' => absurd hvalid' hvalid⟩

theorem writeOutput_invariant (hmode : c.registerMode = true) (hpc : s.pc = .idle)
    (hinv : ShadowInvariant c (s, current))
    (hbits : ∀ b ∈ c.shutdownBits, 0 ≤ b ∧ b < 32)
    (hcurrent : s.outShadowValid = true → current = true) (bit : Int) (on : Bool) :
    ShadowInvariant c (s.writeOutput c bit on, current) := by
  by_cases hrange : bit < 0 ∨ 16 ≤ bit
  · rw [State.writeOutput, if_pos hrange]
    exact hinv
  · rw [State.writeOutput, if_neg hrange, if_pos hmode]
    exact use_invariant hpc hinv hbits hcurrent _

theorem onShutdown_invariant (hmode : c.registerMode = true) (hpc : s.pc = .idle)
    (hinv : ShadowInvariant c (s, current))
    (hbits : ∀ b ∈ c.shutdownBits, 0 ≤ b ∧ b < 32)
    (hcurrent : s.outShadowValid = true → current = true) :
    ShadowInvariant c (s.onShutdown c, current) := by
  rw [State.onShutdown, if_pos hmode]
  by_cases hflags : (c.ledsOffOnShutdown || c.chargingOffOnShutdown) = true
  · rw [if_pos hflags]
    exact use_invariant hpc hinv hbits hcurrent _
  · rw [if_neg hflags]
    exact close_invariant s current

/-- A transaction that reads no coils keeps what the shadow shows. -/
theorem mirrors_after {o : Outcome} {t : Transacted} (hlink : current = true → s.link ≠ .closed)
    (hmirrors : Mirrors (s, current)) (ht : transact s.link o = some t)
    (hcurrent : current' = true → t.link ≠ .closed ∧ current = true) (pc : Pc) :
    (current' = true → t.link ≠ .closed) ∧
      Mirrors ({ s with link := t.link, pc := pc }, current') := by
  refine ⟨fun h => (hcurrent h).1, ?_⟩
  intro hvalid hcurrent' hlive
  obtain ⟨hopen, rfl⟩ := hcurrent hcurrent'
  rcases transact_cases ht with ⟨hclosed, -⟩ | ⟨-, hdead, -⟩
  · exact absurd hclosed hopen
  · exact hmirrors hvalid rfl (live_of_not_dead (hlink rfl) hdead)

theorem noteRead_of_answer {o : Outcome} {coils : List Bool} (h : s.answer c o = some coils) :
    noteRead c s (.transaction o) current = true := by
  simp [noteRead, read, h]

theorem noteRead_of_none {o : Outcome} {t : Transacted} (h : s.answer c o = none)
    (ht : transact s.link o = some t) (hnote : noteRead c s (.transaction o) current = true) :
    t.link ≠ .closed ∧ current = true := by
  simpa [noteRead, read, transacted, h, ht] using hnote

/-- An answer comes on a live connection. -/
theorem link_of_answer {o : Outcome} {t : Transacted} {coils : List Bool}
    (h : s.answer c o = some coils) (ht : transact s.link o = some t) : t.link = .live := by
  obtain ⟨-, -, beyond, -, rfl, -⟩ := answer_eq_some h
  rcases transact_cases ht with ⟨-, -, hne, -⟩ | ⟨hlive, -⟩
  · exact absurd rfl (hne beyond)
  · exact hlive

theorem sync_resumes (hbits : ∀ b ∈ c.shutdownBits, 0 ≤ b ∧ b < 32) {p : Purpose}
    (hpc : s.pc = .sync p) (hinv : ShadowInvariant c (s, current)) {o : Outcome} {t : Transacted}
    (ht : transact s.link o = some t) :
    ShadowInvariant c (({ s with link := t.link }).resume c t.ok (s.answer c o),
      noteRead c s (.transaction o) current) := by
  obtain ⟨hlink, hmirrors⟩ := hinv (by simp [hpc])
  simp only [hpc] at hmirrors
  cases ha : s.answer c o with
  | some coils =>
      have hlive := link_of_answer ha ht
      obtain ⟨addr, qty, beyond, hrequest, -, rfl⟩ := answer_eq_some ha
      have hqty : 16 ≤ qty.toNat := by
        simp only [State.request, hpc, Option.some.injEq, Request.readCoils.injEq] at hrequest
        rw [← hrequest.2]
        decide
      have hclosed : t.link ≠ .closed := by rw [hlive]; nofun
      rw [noteRead_of_answer ha]
      simp only [State.resume, hpc]
      exact prepare_invariant hbits p hclosed fun _ => shadows_of_coils hqty _ beyond
  | none =>
      simp only [State.resume, hpc]
      cases p with
      | command bit on =>
          intro _
          exact mirrors_after hlink hmirrors ht (noteRead_of_none ha ht) .idle
      | shutdown => exact close_invariant _ _

/-- A register write: what succeeded shows in shadow and outputs alike. -/
theorem write_resumes {p : Purpose} (hpc : s.pc = .writeRegister p)
    (hinv : ShadowInvariant c (s, current)) {o : Outcome} {t : Transacted}
    (ht : transact s.link o = some t) :
    ShadowInvariant c (({ s with
      link := t.link
      outputs := if t.acted then s.registerValue.getD 0 else s.outputs }).resume c t.ok
        (s.answer c o), noteRead c s (.transaction o) current) := by
  obtain ⟨hlink, hcurrent, hshadow⟩ := hinv.before_write hpc
  have ha : s.answer c o = none := by simp [State.answer, State.request, hpc]
  cases p with
  | shutdown =>
      simp only [State.resume, hpc]
      exact close_invariant _ _
  | command bit on =>
      simp only [State.resume, hpc]
      intro _
      refine ⟨fun h => (noteRead_of_none ha ht h).1, ?_⟩
      intro hvalid _ _
      have hok : t.ok = true := (Bool.and_eq_true_iff.mp hvalid).2
      have hacted := acted_of_ok ht hok
      have hlive := live_of_not_dead (hlink hcurrent) (not_dead_of_acted ht hacted)
      obtain ⟨v, hv, -⟩ := hshadow hlive
      refine ⟨v, hv, ?_⟩
      intro i hi
      simp [hacted, State.registerValue, hv, hi]

theorem pollCoils_resumes (hmode : c.registerMode = true) (hqty : 16 ≤ c.readbackQty.toNat)
    (hpc : s.pc = .pollCoils) (hinv : ShadowInvariant c (s, current)) {o : Outcome}
    {t : Transacted} (ht : transact s.link o = some t) :
    ShadowInvariant c (({ s with link := t.link }).resume c t.ok (s.answer c o),
      noteRead c s (.transaction o) current) := by
  obtain ⟨hlink, hmirrors⟩ := hinv (by simp [hpc])
  simp only [hpc] at hmirrors
  have hnext : ∀ (u : State) (coils : Option (List Bool)) (b : Bool),
      ((b = true → u.link ≠ .closed) ∧ Mirrors (u, b)) →
      ShadowInvariant c ({ u with pc := if 0 < c.inRegCount then .pollRegs coils else .idle },
        b) := by
    intro u coils b hu _
    by_cases hregs : 0 < c.inRegCount
    · rw [if_pos hregs]
      exact hu
    · rw [if_neg hregs]
      exact hu
  cases ha : s.answer c o with
  | some coils =>
      have hlive := link_of_answer ha ht
      obtain ⟨addr, qty, beyond, hrequest, -, rfl⟩ := answer_eq_some ha
      have hqty' : 16 ≤ qty.toNat := by
        simp only [State.request, hpc, Option.some.injEq, Request.readCoils.injEq] at hrequest
        rwa [← hrequest.2]
      have hclosed : t.link ≠ .closed := by rw [hlive]; nofun
      rw [noteRead_of_answer ha]
      simp only [State.resume, hpc, if_pos hmode]
      exact hnext _ _ true ⟨fun _ => hclosed, fun _ _ _ => shadows_of_coils hqty' _ beyond⟩
  | none =>
      simp only [State.resume, hpc]
      exact hnext { s with link := t.link } none _
        (mirrors_after hlink hmirrors ht (noteRead_of_none ha ht) s.pc)

theorem transaction_invariant (hmode : c.registerMode = true) (hqty : 16 ≤ c.readbackQty.toNat)
    (hbits : ∀ b ∈ c.shutdownBits, 0 ≤ b ∧ b < 32) (hinv : ShadowInvariant c (s, current))
    {o : Outcome} {r : Request} {t : Transacted} (hr : s.request c = some r)
    (ht : transact s.link o = some t) :
    ShadowInvariant c (({ s with
      link := t.link
      outputs := if t.acted then r.effect c s.outputs else s.outputs }).resume c t.ok
        (s.answer c o), noteRead c s (.transaction o) current) := by
  have hread : r.effect c s.outputs = s.outputs →
      ({ s with
        link := t.link
        outputs := if t.acted then r.effect c s.outputs else s.outputs } : State) =
      { s with link := t.link } := by
    intro h
    rw [h, ite_self]
  obtain ⟨pc, hpc⟩ : ∃ pc, s.pc = pc := ⟨_, rfl⟩
  cases pc with
  | idle => simp [State.request, hpc] at hr
  | pollOpen => simp [State.request, hpc] at hr
  | done => simp [State.request, hpc] at hr
  | writeCoil bit on => exact absurd (hinv (by simp [hpc])) (by simp [hpc])
  | shutdownCoils bit rest => exact absurd (hinv (by simp [hpc])) (by simp [hpc])
  | sync p =>
      simp only [State.request, hpc, Option.some.injEq] at hr
      subst hr
      rw [hread rfl]
      exact sync_resumes hbits hpc hinv ht
  | writeRegister p =>
      simp only [State.request, hpc, Option.some.injEq] at hr
      subst hr
      rw [show Request.effect c s.outputs (.writeSingleRegister (UInt16.ofInt c.regBase)
        (s.registerValue.getD 0)) = s.registerValue.getD 0 from if_pos rfl]
      exact write_resumes hpc hinv ht
  | pollCoils =>
      simp only [State.request, hpc, Option.some.injEq] at hr
      subst hr
      rw [hread rfl]
      exact pollCoils_resumes hmode hqty hpc hinv ht
  | pollRegs coils =>
      simp only [State.request, hpc, Option.some.injEq] at hr
      subst hr
      rw [hread rfl]
      obtain ⟨hlink, hmirrors⟩ := hinv (by simp [hpc])
      simp only [hpc] at hmirrors
      have ha : s.answer c o = none := by simp [State.answer, State.request, hpc]
      simp only [State.resume, hpc]
      intro _
      exact mirrors_after hlink hmirrors ht (noteRead_of_none ha ht) .idle

/-- Off the connection the outputs may change. -/
theorem offline_invariant (hinv : ShadowInvariant c (s, current)) {link : Link}
    (hlink : link ≠ .live) (hsame : s.link = .closed ↔ link = .closed) (outputs : BitVec 16) :
    ShadowInvariant c ({ s with link := link, outputs := outputs }, current) := by
  intro hdone
  obtain ⟨hopen, hpcs⟩ := hinv hdone
  refine ⟨fun h hclosed => hopen h (hsame.mpr hclosed), ?_⟩
  obtain ⟨pc, hpc⟩ : ∃ pc, s.pc = pc := ⟨_, rfl⟩
  cases pc with
  | writeRegister p =>
      simp only [hpc] at hpcs ⊢
      exact ⟨hpcs.1, fun h => absurd h hlink⟩
  | pollOpen =>
      simp only [hpc] at hpcs ⊢
      exact hsame.mp hpcs
  | done => exact absurd hpc hdone
  | writeCoil bit on => simp only [hpc] at hpcs
  | shutdownCoils bit rest => simp only [hpc] at hpcs
  | idle | sync p | pollCoils | pollRegs coils =>
      simp only [hpc]
      exact fun _ _ h => absurd h hlink

/-- Every step keeps the invariant, if commands find a current shadow. -/
theorem step_invariant (hmode : c.registerMode = true) (hqty : 16 ≤ c.readbackQty.toNat)
    (hbits : ∀ b ∈ c.shutdownBits, 0 ≤ b ∧ b < 32) (w : Observed) (l : Label) (w' : Observed)
    (hinv : ShadowInvariant c w) (hcurrent : CurrentShadow w l w')
    (hstep : observedStep c w l = some w') : ShadowInvariant c w' := by
  obtain ⟨s, current⟩ := w
  obtain ⟨s', current'⟩ := w'
  obtain ⟨hs, rfl⟩ := observe_eq_some hstep
  cases l with
  | led led on =>
      obtain ⟨⟨hpc, -⟩, hs'⟩ := Option.ite_none_right_eq_some.mp hs
      obtain rfl := Option.some.inj hs'
      exact writeOutput_invariant hmode hpc hinv hbits (hcurrent rfl) _ _
  | charging on =>
      obtain ⟨hpc, hs'⟩ := Option.ite_none_right_eq_some.mp hs
      obtain rfl := Option.some.inj hs'
      exact writeOutput_invariant hmode hpc hinv hbits (hcurrent rfl) _ _
  | shutdown =>
      obtain ⟨hpc, hs'⟩ := Option.ite_none_right_eq_some.mp hs
      obtain rfl := Option.some.inj hs'
      exact onShutdown_invariant hmode hpc hinv hbits (hcurrent rfl)
  | poll =>
      obtain ⟨hpc, hs'⟩ := Option.ite_none_right_eq_some.mp hs
      obtain rfl := Option.some.inj hs'
      have hidle := hinv (by simp [hpc])
      simp only [hpc] at hidle
      intro _
      by_cases hclosed : s.link = .closed
      · exact ⟨hidle.1, by simp [hclosed]⟩
      · rw [if_neg hclosed]
        exact hidle
  | connect ok =>
      obtain ⟨hpc, hs'⟩ := Option.ite_none_right_eq_some.mp hs
      obtain rfl := Option.some.inj hs'
      obtain ⟨hlink, hclosed⟩ := hinv (by simp [hpc])
      simp only [hpc] at hclosed
      have hstale : ¬ current = true := fun h => hlink h hclosed
      intro _
      exact ⟨fun h => absurd h hstale, fun _ h => absurd h hstale⟩
  | transaction o =>
      obtain ⟨-, hs'⟩ := Option.ite_none_right_eq_some.mp hs
      obtain ⟨r, hr, ht'⟩ := Option.bind_eq_some_iff.mp hs'
      obtain ⟨t, ht, rfl⟩ := Option.map_eq_some_iff.mp ht'
      exact transaction_invariant hmode hqty hbits hinv hr ht
  | lose =>
      obtain ⟨hlive, hs'⟩ := Option.ite_none_right_eq_some.mp hs
      obtain rfl := Option.some.inj hs'
      have hdead : Link.dead ≠ .live := nofun
      exact offline_invariant hinv hdead (by simp [hlive]) s.outputs
  | change outputs =>
      obtain ⟨hoffline, hs'⟩ := Option.ite_none_left_eq_some.mp hs
      obtain rfl := Option.some.inj hs'
      exact offline_invariant hinv hoffline Iff.rfl outputs

/-- A write that the device takes is made on the live connection. -/
theorem write_good (w : Observed) (l : Label) (w' : Observed) (hinv : ShadowInvariant c w) :
    ChangesOnlyCommanded c w l w' := by
  obtain ⟨s, current⟩ := w
  intro p t hpc ht hacted
  obtain ⟨hlink, hcurrent, hshadow⟩ := hinv.before_write hpc
  have hlive : s.link = .live := by
    cases l with
    | transaction o => exact live_of_not_dead (hlink hcurrent) (not_dead_of_acted ht hacted)
    | _ => cases ht
  obtain ⟨v, hv, hbits⟩ := hshadow hlive
  refine ⟨v.setWidth 16, congrArg (Option.map (BitVec.setWidth 16)) hv, ?_⟩
  intro i hi
  rw [BitVec.getLsbD_setWidth, hbits i hi]
  simp [hi]

end Step

/-- In register mode, while every command and the shutdown find the shadow
invalid or current, every register write changes what was commanded alone. -/
theorem writes_change_only_commanded (c : Config) (hmode : c.registerMode = true)
    (hqty : 16 ≤ c.readbackQty.toNat) (hbits : ∀ b ∈ c.shutdownBits, 0 ≤ b ∧ b < 32)
    (outputs : BitVec 16) (ls : List Label)
    (hcurrent : Along (observedStep c) CurrentShadow (start outputs, false) ls) :
    Along (observedStep c) (ChangesOnlyCommanded c) (start outputs, false) ls := by
  have hstart : ShadowInvariant c (start outputs, false) := fun _ => ⟨nofun, fun h => nomatch h⟩
  exact along_of_invariant (step_invariant hmode hqty hbits)
    (fun w l w' hinv _ _ => write_good w l w' hinv) hstart hcurrent

/-- The defaults in register mode. -/
def registerConfig : Config := loadConfig { writeMode := "register" }

/-- A poll, the charging relay on, and after an adapter reboot that only the next
poll notices, a lamp on and the shutdown. -/
def rebootNoticed : List Label :=
  [.poll, .connect true, .transaction (.answered []), .transaction (.answered []),
    .charging true, .transaction (.answered []), .lose, .change 0,
    .led ⟨"vision", 0⟩ true, .transaction (.broken false),
    .led ⟨"vision", 0⟩ true, .transaction (.answered []), .transaction (.answered []),
    .shutdown, .transaction (.answered [])]

theorem writes_change_only_commanded_reboot :
    Along (observedStep registerConfig) (ChangesOnlyCommanded registerConfig)
      (start 0, false) rebootNoticed :=
  writes_change_only_commanded registerConfig rfl (by decide) (by decide) 0 rebootNoticed
    (by decide)

/-- The poll reads the outputs with the charging relay on and then loses the
connection; the adapter reboots with all outputs off, and a lamp is switched on. -/
def staleShadow : List Label :=
  [.poll, .connect true, .transaction (.answered []), .transaction (.broken false), .change 0,
    .led ⟨"vision", 0⟩ true]

/-- Before the lamp's write: the relay is on in the shadow alone. -/
def beforeLamp : Observed :=
  (⟨.closed, some 0x41, true, .writeRegister (.command 0 true), 0⟩, false)

/-- The lamp's command switches the charging relay on. -/
theorem lamp_switches_charging :
    ¬ ∀ (c : Config) (outputs : BitVec 16) (ls : List Label), c.registerMode = true →
      Along (observedStep c) (ChangesOnlyCommanded c) (start outputs, false) ls := by
  intro hclaim
  have hrun : run (observedStep registerConfig) (start 0x40, false) staleShadow =
      some beforeLamp := rfl
  have hwrite := Along.after_prefix (hclaim registerConfig 0x40
    (staleShadow ++ [.transaction (.answered [])]) rfl) hrun rfl
  obtain ⟨value, hvalue, hbits⟩ := hwrite (.command 0 true) ⟨true, true, .live⟩ rfl rfl rfl
  obtain rfl := Option.some.inj hvalue
  have hrelay := hbits 6 (by decide)
  revert hrelay
  decide

end PolishingRobot.Crevis
