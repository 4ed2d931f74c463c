import PolishingRobot.Crevis.Node
import PolishingRobot.Lists.PartialMaps

/-!
# Bits outside the module

The module has sixteen outputs, the parameters any bits. `writeOutputLocked`
checks the bit of a command. The poll checks the bits that it publishes against
the number of coils alone, and the shutdown checks nothing.
-/

namespace PolishingRobot.Crevis

open PolishingRobot.Lists (mapM_isSome_iff)
open Runs

/-- `bit < size && coils[bit]`; `none` for an index outside the vector. -/
def coilOn (coils : List Bool) (bit : Int) : Option Bool :=
  if bit < coils.length then if 0 ≤ bit then coils[bit.toNat]? else none else some false

/-- The mask of the LEDs that are on; a shift by a bit outside the word is undefined. -/
def ledMask (states : List (Led × Bool)) : Option (BitVec 32) :=
  states.foldl (fun mask p =>
    if p.2 then mask.bind fun v => if p.1.bit < 32 then some (setBit v p.1.bit.toNat true) else none
    else mask) (some 0)

structure Publication where
  ledStates : List (String × Bool)
  mask : Option (BitVec 32)
  chargePortOn : Bool
  deriving DecidableEq, Repr

/-- The messages about the outputs; `none` after an index outside the coils. -/
def publication (c : Config) (coils : List Bool) : Option Publication :=
  (c.leds.mapM fun l => (coilOn coils l.bit).map fun on => (l, on)).bind fun states =>
    (coilOn coils c.chargingBit).map fun charging =>
      { ledStates := states.map fun p => (p.1.name, p.2)
        mask := ledMask states
        chargePortOn := charging }

/-- The coils that a poll publishes at its end. -/
def published (c : Config) (s : State) : Label → Option (List Bool)
  | .transaction o =>
      match s.pc with
      | .pollRegs coils => coils
      | .pollCoils => if 0 < c.inRegCount then none else s.answer c o
      | _ => none
  | _ => none

/-- The bits of the parameters. -/
def Config.bits (c : Config) : List Int := c.leds.map Led.bit ++ [c.chargingBit]

def InModule (bit : Int) : Prop := 0 ≤ bit ∧ bit < 16

/-- The bit of the coil that is written next. -/
def Pc.coil : Pc → Option Int
  | .writeCoil bit _ => some bit
  | .shutdownCoils bit _ => some bit
  | _ => none

/-- The bits by which the shadow was shifted for the register write that is next. -/
def Pc.shifted (c : Config) : Pc → List Int
  | .writeRegister (.command bit _) => [bit]
  | .writeRegister .shutdown => c.shutdownBits
  | _ => []

/-- The positions in the loops that set the shadow from coils: each indexes the
coils and shifts the shadow. -/
def shadowPositions (coils : List Bool) : List Int :=
  (coils.take 16).zipIdx.map fun p => (p.2 : Int)

/-- A step writes no coil but those of the module, each for its own bit; it
shifts the shadow by no other bits, and indexes the coils within their bounds. -/
structure Inert (c : Config) (s : State) (l : Label) (s' : State) : Prop where
  writes : ∀ o addr on, l = .transaction o → s.request c = some (.writeSingleCoil addr on) →
    ∃ bit, s.pc.coil = some bit ∧ InModule bit ∧ (addr.toNat : Int) = c.coilBase + bit
  shifts : ∀ bit ∈ s'.pc.shifted c, InModule bit
  loads : ∀ o coils, l = .transaction o → s.answer c o = some coils →
    ∀ bit ∈ shadowPositions coils, InModule bit ∧ bit < coils.length
  indexes : ∀ coils, published c s l = some coils → (publication c coils).isSome

/-- No bit is negative, the shutdown switches off bits of the module alone, and
in coil mode the addresses of the module's bits are sixteen-bit numbers. -/
structure BitsFit (c : Config) : Prop where
  nonnegative : ∀ bit ∈ c.bits, 0 ≤ bit
  shutdown : ∀ bit ∈ c.shutdownBits, bit < 16
  addresses : c.registerMode = false → ∀ bit ∈ c.bits, bit < 16 →
    0 ≤ c.coilBase + bit ∧ c.coilBase + bit < 65536

section Bits

variable {c : Config}

theorem bits_of_shutdownBits {bit : Int} (h : bit ∈ c.shutdownBits) : bit ∈ c.bits := by
  rw [Config.shutdownBits, List.mem_append] at h
  rw [Config.bits, List.mem_append]
  refine h.imp ?_ ?_
  · intro hled
    split_ifs at hled
    · exact hled
    · cases hled
  · intro hcharging
    split_ifs at hcharging
    · exact hcharging
    · cases hcharging

/-- The coils are indexed within their bounds exactly if the bit is not negative. -/
theorem coilOn_isSome_iff {coils : List Bool} {bit : Int} :
    (coilOn coils bit).isSome ↔ 0 ≤ bit := by
  rw [coilOn]
  by_cases hlength : bit < coils.length
  · rw [if_pos hlength]
    by_cases hneg : 0 ≤ bit
    · have hbound : bit.toNat < coils.length := by omega
      simp [hneg, hbound]
    · simp [hneg]
  · have hneg : 0 ≤ bit := by omega
    simp [hlength, hneg]

theorem publication_isSome_iff {coils : List Bool} :
    (publication c coils).isSome ↔ ∀ bit ∈ c.bits, 0 ≤ bit := by
  have hleds : (c.leds.mapM fun l => (coilOn coils l.bit).map fun on => (l, on)).isSome ↔
      ∀ l ∈ c.leds, 0 ≤ l.bit := by
    simp only [mapM_isSome_iff, Option.isSome_map, coilOn_isSome_iff]
  have hcharging : (coilOn coils c.chargingBit).isSome ↔ 0 ≤ c.chargingBit := coilOn_isSome_iff
  have hbits : (∀ bit ∈ c.bits, 0 ≤ bit) ↔ (∀ l ∈ c.leds, 0 ≤ l.bit) ∧ 0 ≤ c.chargingBit := by
    simp [Config.bits, or_imp, forall_and]
  rw [hbits, ← hleds, ← hcharging, publication]
  cases c.leds.mapM fun l => (coilOn coils l.bit).map fun on => (l, on) with
  | none => simp
  | some states => simp

theorem shadowPositions_inside {coils : List Bool} {bit : Int} (h : bit ∈ shadowPositions coils) :
    InModule bit ∧ bit < coils.length := by
  obtain ⟨p, hp, rfl⟩ := List.mem_map.mp h
  have hlt := List.snd_lt_of_mem_zipIdx hp
  rw [List.length_take] at hlt
  exact ⟨⟨by omega, by omega⟩, by omega⟩

theorem toNat_ofInt (v : Int) : ((UInt16.ofInt v).toNat : Int) = v % 65536 := by
  rw [UInt16.ofInt, UInt16.toNat_ofNat']
  omega

end Bits

/-- Where the node stands, with the bits that it works on. -/
def Placed (c : Config) (pc : Pc) : Prop :=
  match pc with
  | .writeCoil bit _ => c.registerMode = false ∧ (bit : Int) ∈ c.bits ∧ bit < 16
  | .sync (.command bit _) | .writeRegister (.command bit _) => bit < 16
  | .shutdownCoils bit rest => c.registerMode = false ∧ ∀ b ∈ bit :: rest, b ∈ c.shutdownBits
  | _ => True

section Steps

variable {c : Config} {s s' : State} {l : Label}

theorem prepare_placed {p : Purpose} (h : Placed c (.sync p)) : Placed c (s.prepare c p).pc := by
  cases p with
  | command bit on => exact h
  | shutdown => trivial

theorem writeOutput_placed (h : Placed c s.pc) {bit : Int} (hbit : bit ∈ c.bits) (on : Bool) :
    Placed c (s.writeOutput c bit on).pc := by
  rw [State.writeOutput]
  by_cases hrange : bit < 0 ∨ 16 ≤ bit
  · rw [if_pos hrange]
    exact h
  · rw [if_neg hrange]
    have hlt : bit.toNat < 16 := by omega
    by_cases hmode : c.registerMode = true
    · rw [if_pos hmode]
      by_cases hvalid : s.outShadowValid = true
      · rw [if_pos hvalid]
        exact prepare_placed (p := .command bit.toNat on) hlt
      · rw [if_neg hvalid]
        exact hlt
    · rw [if_neg hmode]
      refine ⟨by simpa using hmode, ?_, hlt⟩
      have hcast : (bit.toNat : Int) = bit := by omega
      rw [hcast]
      exact hbit

theorem shutdownCoils_placed (hmode : c.registerMode = false) {bits : List Int}
    (hbits : ∀ b ∈ bits, b ∈ c.shutdownBits) : Placed c (s.shutdownCoils bits).pc := by
  cases bits with
  | nil => trivial
  | cons bit rest => exact ⟨hmode, hbits⟩

theorem onShutdown_placed : Placed c (s.onShutdown c).pc := by
  rw [State.onShutdown]
  by_cases hmode : c.registerMode = true
  · rw [if_pos hmode]
    split_ifs
    · exact prepare_placed (p := .shutdown) trivial
    · trivial
    · trivial
  · rw [if_neg hmode]
    exact shutdownCoils_placed (by simpa using hmode) fun _ hb => hb

theorem resume_placed (h : Placed c s.pc) (ok : Bool) (coils : Option (List Bool)) :
    Placed c (s.resume c ok coils).pc := by
  unfold State.resume
  cases hpc : s.pc with
  | sync p =>
      rw [hpc] at h
      cases coils with
      | none => cases p <;> trivial
      | some coils => exact prepare_placed h
  | writeRegister p => cases p <;> trivial
  | pollCoils =>
      dsimp only
      split_ifs <;> trivial
  | shutdownCoils bit rest =>
      rw [hpc] at h
      obtain ⟨hmode, hbits⟩ := h
      exact shutdownCoils_placed hmode fun b hb => hbits b (List.mem_cons_of_mem bit hb)
  | writeCoil bit on | pollRegs coils => trivial
  | idle | pollOpen | done =>
      rw [hpc]
      trivial

theorem step_placed (h : Placed c s.pc) (hstep : step c s l = some s') : Placed c s'.pc := by
  cases l with
  | led l on =>
      obtain ⟨⟨-, hl⟩, rfl⟩ : (s.pc = .idle ∧ l ∈ c.leds) ∧ s.writeOutput c l.bit on = s' := by
        simpa [step] using hstep
      have hbit : l.bit ∈ c.bits := List.mem_append_left _ (List.mem_map_of_mem hl)
      exact writeOutput_placed h hbit on
  | charging on =>
      obtain ⟨-, rfl⟩ : s.pc = .idle ∧ s.writeOutput c c.chargingBit on = s' := by
        simpa [step] using hstep
      have hbit : c.chargingBit ∈ c.bits := List.mem_append_right _ (List.mem_singleton.mpr rfl)
      exact writeOutput_placed h hbit on
  | poll =>
      obtain ⟨-, hs'⟩ := Option.ite_none_right_eq_some.mp hstep
      obtain rfl := Option.some.inj hs'
      dsimp only
      split_ifs <;> trivial
  | shutdown =>
      obtain ⟨-, hs'⟩ := Option.ite_none_right_eq_some.mp hstep
      obtain rfl := Option.some.inj hs'
      exact onShutdown_placed
  | connect ok =>
      obtain ⟨-, hs'⟩ := Option.ite_none_right_eq_some.mp hstep
      obtain rfl := Option.some.inj hs'
      trivial
  | transaction o =>
      obtain ⟨-, hs'⟩ := Option.ite_none_right_eq_some.mp hstep
      obtain ⟨r, -, hs'⟩ := Option.bind_eq_some_iff.mp hs'
      obtain ⟨t, -, rfl⟩ := Option.map_eq_some_iff.mp hs'
      have hafter : Placed c { s with
          link := t.link
          outputs := if t.acted then r.effect c s.outputs else s.outputs }.pc := h
      exact resume_placed hafter t.ok (s.answer c o)
  | lose =>
      obtain ⟨-, hs'⟩ := Option.ite_none_right_eq_some.mp hstep
      obtain rfl := Option.some.inj hs'
      exact h
  | change outputs =>
      obtain ⟨-, hs'⟩ := Option.ite_none_left_eq_some.mp hstep
      obtain rfl := Option.some.inj hs'
      exact h

/-- A coil is written for its bit. -/
theorem request_coil {addr : UInt16} {on : Bool}
    (h : s.request c = some (.writeSingleCoil addr on)) :
    ∃ bit, s.pc.coil = some bit ∧ addr = UInt16.ofInt (c.coilBase + bit) := by
  rw [State.request] at h
  cases hpc : s.pc with
  | writeCoil bit on' | shutdownCoils bit rest =>
      rw [hpc] at h
      obtain ⟨rfl, -⟩ : UInt16.ofInt (c.coilBase + bit) = addr ∧ _ := by simpa using h
      exact ⟨bit, rfl, rfl⟩
  | _ => simp [hpc] at h

/-- The coils that are written are in the module. -/
theorem coil_inModule (hfit : BitsFit c) (h : Placed c s.pc) {bit : Int}
    (hcoil : s.pc.coil = some bit) :
    c.registerMode = false ∧ bit ∈ c.bits ∧ InModule bit := by
  cases hpc : s.pc with
  | writeCoil bit' on =>
      rw [hpc] at h hcoil
      obtain rfl := Option.some.inj hcoil
      obtain ⟨hmode, hbit, hlt⟩ := h
      exact ⟨hmode, hbit, by omega, by omega⟩
  | shutdownCoils bit' rest =>
      rw [hpc] at h hcoil
      obtain rfl := Option.some.inj hcoil
      obtain ⟨hmode, hbits⟩ := h
      have hbit := hbits bit' (by simp)
      have hmem := bits_of_shutdownBits hbit
      exact ⟨hmode, hmem, hfit.nonnegative bit' hmem, hfit.shutdown bit' hbit⟩
  | _ => simp [hpc, Pc.coil] at hcoil

theorem shifted_inModule (hfit : BitsFit c) (h : Placed c s.pc) {bit : Int}
    (hbit : bit ∈ s.pc.shifted c) : InModule bit := by
  cases hpc : s.pc with
  | writeRegister p =>
      rw [hpc] at h hbit
      cases p with
      | command bit' on =>
          obtain rfl := List.mem_singleton.mp hbit
          have hlt : bit' < 16 := h
          exact ⟨by omega, by omega⟩
      | shutdown => exact ⟨hfit.nonnegative bit (bits_of_shutdownBits hbit), hfit.shutdown bit hbit⟩
  | _ => simp [hpc, Pc.shifted] at hbit

theorem inert_of_placed (hfit : BitsFit c) (h : Placed c s.pc) (hstep : step c s l = some s') :
    Inert c s l s' where
  writes := by
    rintro o addr on rfl hrequest
    obtain ⟨bit, hcoil, rfl⟩ := request_coil hrequest
    obtain ⟨hmode, hbit, hmodule⟩ := coil_inModule hfit h hcoil
    obtain ⟨hlow, hhigh⟩ := hfit.addresses hmode bit hbit hmodule.2
    refine ⟨bit, hcoil, hmodule, ?_⟩
    rw [toNat_ofInt]
    omega
  shifts := fun _ hbit => shifted_inModule hfit (step_placed h hstep) hbit
  loads := fun _ _ _ _ _ hbit => shadowPositions_inside hbit
  indexes := fun _ _ => publication_isSome_iff.mpr hfit.nonnegative

end Steps

section Reached

variable {c : Config} {s : State} {o : Outcome} {r : Request} {t : Transacted}

theorem start_idle : (start 0).pc = .idle := rfl

theorem step_transaction (hr : s.request c = some r) (hcompletes : o.completes (some r) = true)
    (ht : transact s.link o = some t) :
    step c s (.transaction o) = some ({ s with
      link := t.link
      outputs := if t.acted then r.effect c s.outputs else s.outputs }.resume c t.ok
        (s.answer c o)) := by
  rw [step, hr, if_pos hcompletes, ht, Option.bind_some, Option.map_some]

/-- Only a complete answer carries coils. -/
theorem answer_eq_none (ho : ∀ beyond, o ≠ .answered beyond) : s.answer c o = none := by
  unfold State.answer
  split
  · exact absurd rfl (ho _)
  · rfl

/-- A transaction without a connection fails and leaves none. -/
theorem step_unreachable (hlink : s.link = .closed) (hr : s.request c = some r) :
    step c s (.transaction .unreachable) = some (s.resume c false none) := by
  have hcompletes : Outcome.unreachable.completes (some r) = true := by cases r <;> rfl
  have ht : transact s.link .unreachable = some ⟨false, false, .closed⟩ := by rw [hlink]; rfl
  have hsame : { s with link := .closed, outputs := s.outputs } = s := by rw [← hlink]
  have hanswer : s.answer c .unreachable = none := answer_eq_none fun _ => nofun
  rw [step_transaction hr hcompletes ht, hanswer]
  dsimp only
  rw [if_neg Bool.false_ne_true, hsame]

/-- On a live connection a request may be refused. -/
theorem step_refused (hlink : s.link = .live) (hr : s.request c = some r) :
    ∃ s', step c s (.transaction (.refused false)) = some s' := by
  have hcompletes : (Outcome.refused false).completes (some r) = true := by cases r <;> rfl
  have ht : transact s.link (.refused false) = some ⟨false, false, .live⟩ := by rw [hlink]; rfl
  exact ⟨_, step_transaction hr hcompletes ht⟩

/-- An answer with coils enough for every quantity. -/
def manyCoils : Outcome := .answered (List.replicate 65536 false)

/-- A poll that reads the coils asks for the registers next, if there are any. -/
theorem step_pollCoils (hpc : s.pc = .pollCoils) (hlink : s.link = .live) :
    ∃ s' coils, step c s (.transaction manyCoils) = some s' ∧ s.answer c manyCoils = some coils ∧
      s'.link = .live ∧ (0 < c.inRegCount → s'.pc = .pollRegs (some coils)) := by
  have hr : s.request c = some (.readCoils (UInt16.ofInt c.coilBase) c.readbackQty) := by
    rw [State.request, hpc]
  have hcompletes : manyCoils.completes
      (some (.readCoils (UInt16.ofInt c.coilBase) c.readbackQty)) = true := by
    have hlt := c.readbackQty.toNat_lt
    rw [manyCoils, Outcome.completes, List.length_replicate, decide_eq_true_eq]
    omega
  have ht : transact s.link manyCoils = some ⟨true, true, .live⟩ := by rw [hlink]; rfl
  have hanswer : s.answer c manyCoils =
      some (coilsRead s.outputs c.readbackQty (List.replicate 65536 false)) := by
    unfold State.answer
    rw [hr, manyCoils]
  refine ⟨_, _, step_transaction hr hcompletes ht, hanswer, ?_, ?_⟩
  · rw [hanswer]
    unfold State.resume
    simp only [hpc]
    split_ifs <;> rfl
  · intro hcount
    rw [hanswer]
    unfold State.resume
    simp only [hpc, if_pos hcount]

/-- Every node publishes coils in some run. -/
theorem exists_published (c : Config) : ∃ s l s' coils, Reachable (step c) (start 0) s ∧
    step c s l = some s' ∧ published c s l = some coils := by
  have hopen : Reachable (step c) (start 0) ⟨.live, some 0, false, .pollCoils, 0⟩ :=
    ⟨[.poll, .connect true], rfl⟩
  obtain ⟨s', coils, hstep, hanswer, hlink, hpc⟩ :=
    step_pollCoils (c := c) (s := ⟨.live, some 0, false, .pollCoils, 0⟩) rfl rfl
  by_cases hcount : 0 < c.inRegCount
  · have hr : s'.request c =
        some (.readInputRegisters (UInt16.ofInt c.inRegBase) (UInt16.ofInt c.inRegCount)) := by
      rw [State.request, hpc hcount]
    obtain ⟨s'', hstep'⟩ := step_refused hlink hr
    refine ⟨s', _, s'', coils, hopen.step hstep, hstep', ?_⟩
    simp only [published, hpc hcount]
  · refine ⟨_, _, s', coils, hopen, hstep, ?_⟩
    simp only [published, if_neg hcount]
    exact hanswer

/-- In coil mode a command for a bit of the module is written. -/
theorem exists_writeCoil (hmode : c.registerMode = false) {bit : Int} (hbit : bit ∈ c.bits)
    (hlow : 0 ≤ bit) (hhigh : bit < 16) :
    Reachable (step c) (start 0) ⟨.closed, some 0, false, .writeCoil bit.toNat true, 0⟩ := by
  have hwrite : (start 0).writeOutput c bit true =
      ⟨.closed, some 0, false, .writeCoil bit.toNat true, 0⟩ := by
    rw [State.writeOutput, if_neg (by omega), hmode]
    rfl
  rw [Config.bits, List.mem_append, List.mem_singleton] at hbit
  rcases hbit with hled | rfl
  · obtain ⟨l, hl, rfl⟩ := List.mem_map.mp hled
    refine ⟨[.led l true], ?_⟩
    rw [run, step, if_pos ⟨start_idle, hl⟩, hwrite]
    rfl
  · refine ⟨[.charging true], ?_⟩
    rw [run, step, if_pos start_idle, hwrite]
    rfl

/-- The shutdown of coil mode goes on after every write. -/
theorem shutdown_reaches {s₀ : State} (hlink : s.link = .closed) {bits : List Int} {bit : Int}
    (hbit : bit ∈ bits) (h : Reachable (step c) s₀ (s.shutdownCoils bits)) :
    ∃ rest, Reachable (step c) s₀ { s with pc := .shutdownCoils bit rest } := by
  induction bits with
  | nil => cases hbit
  | cons b rest ih =>
      rcases List.mem_cons.mp hbit with rfl | hrest
      · exact ⟨rest, h⟩
      · refine ih hrest (h.step (l := .transaction .unreachable) ?_)
        exact step_unreachable (s := { s with pc := .shutdownCoils b rest }) hlink rfl

/-- The shutdown shifts the shadow by its bits, or writes their coils. -/
theorem exists_shutdown {bit : Int} (hbit : bit ∈ c.shutdownBits) :
    (∃ s l s', Reachable (step c) (start 0) s ∧ step c s l = some s' ∧
      bit ∈ s'.pc.shifted c) ∨
    ∃ rest, Reachable (step c) (start 0)
      ⟨.closed, some 0, false, .shutdownCoils bit rest, 0⟩ := by
  by_cases hmode : c.registerMode = true
  · left
    have hflags : (c.ledsOffOnShutdown || c.chargingOffOnShutdown) = true := by
      by_contra hflags
      rw [Bool.or_eq_true, not_or] at hflags
      rw [Config.shutdownBits, if_neg hflags.1, if_neg hflags.2] at hbit
      cases hbit
    have hshutdown : (start 0).onShutdown c = ⟨.closed, some 0, false, .sync .shutdown, 0⟩ := by
      rw [State.onShutdown, if_pos hmode, if_pos hflags]
      rfl
    have hreach : Reachable (step c) (start 0) ⟨.closed, some 0, false, .sync .shutdown, 0⟩ := by
      refine ⟨[.shutdown], ?_⟩
      rw [run, step, if_pos start_idle, hshutdown]
      rfl
    exact ⟨_, .transaction (.answered []), _, hreach, rfl, hbit⟩
  · right
    have hshutdown : (start 0).onShutdown c = (start 0).shutdownCoils c.shutdownBits := by
      rw [State.onShutdown, if_neg hmode]
    have hreach : Reachable (step c) (start 0) ((start 0).shutdownCoils c.shutdownBits) := by
      refine ⟨[.shutdown], ?_⟩
      rw [run, step, if_pos start_idle, hshutdown]
      rfl
    exact shutdown_reaches rfl hbit hreach

end Reached

/-- Over every run of commands, polls and the shutdown: the node is inert outside
the module exactly if its bits fit. -/
theorem inert_iff (c : Config) :
    (∀ outputs ls, Along (step c) (Inert c) (start outputs) ls) ↔ BitsFit c := by
  constructor
  · intro h
    have hinert : ∀ {s l s'}, Reachable (step c) (start 0) s → step c s l = some s' →
        Inert c s l s' := by
      rintro s l s' ⟨ls, hrun⟩ hstep
      exact Along.after_prefix (h 0 (ls ++ [l])) hrun hstep
    have hnonnegative : ∀ bit ∈ c.bits, 0 ≤ bit := by
      obtain ⟨s, l, s', coils, hreach, hstep, hpublished⟩ := exists_published c
      exact publication_isSome_iff.mp ((hinert hreach hstep).indexes coils hpublished)
    refine ⟨hnonnegative, ?_, ?_⟩
    · intro bit hbit
      rcases exists_shutdown hbit with ⟨s, l, s', hreach, hstep, hshifted⟩ | ⟨rest, hreach⟩
      · exact ((hinert hreach hstep).shifts bit hshifted).2
      · obtain ⟨bit', hcoil, hmodule, -⟩ :=
          (hinert hreach (step_unreachable rfl rfl)).writes .unreachable _ false rfl rfl
        obtain rfl := Option.some.inj hcoil
        exact hmodule.2
    · intro hmode bit hbit hhigh
      have hlow := hnonnegative bit hbit
      have hreach := exists_writeCoil hmode hbit hlow hhigh
      obtain ⟨bit', hcoil, -, haddr⟩ :=
        (hinert hreach (step_unreachable rfl rfl)).writes .unreachable _ true rfl rfl
      obtain rfl := Option.some.inj hcoil
      have hcast : (bit.toNat : Int) = bit := by omega
      rw [hcast, toNat_ofInt] at haddr
      omega
  · intro hfit outputs ls
    have keep : ∀ s l s', Placed c s.pc → True → step c s l = some s' → Placed c s'.pc :=
      fun _ _ _ h _ hstep => step_placed h hstep
    have good : ∀ s l s', Placed c s.pc → True → step c s l = some s' → Inert c s l s' :=
      fun _ _ _ h _ hstep => inert_of_placed hfit h hstep
    exact along_of_invariant keep good trivial (along_of_forall_mem (step c) (fun _ _ => trivial) _)

/-- The charging relay sits one bit behind the module. -/
def farCharging : Config := loadConfig { chargingBit := 16 }

/-- The shutdown writes a coil behind the module. -/
theorem far_relay_written :
    ¬ ∀ c outputs ls, Along (step c) (Inert c) (start outputs) ls := by
  intro h
  have hinert : Inert farCharging ⟨.closed, some 0, false, .shutdownCoils 16 [], 0⟩
      (.transaction .unreachable) _ :=
    Along.after_prefix (h farCharging 0 ([.shutdown] ++ [.transaction .unreachable])) rfl rfl
  obtain ⟨bit, hcoil, hmodule, -⟩ := hinert.writes .unreachable _ false rfl rfl
  obtain rfl := Option.some.inj hcoil
  exact absurd hmodule.2 (by decide)

end PolishingRobot.Crevis
