import Mathlib.Logic.Function.Basic
import PolishingRobot.Crevis.OutOfModuleBits
import PolishingRobot.Crevis.OutputShadow

/-!
# The outputs as a board of switches

For its users the node is a board: a switch stays as it was set last, by an
accepted write or by the device itself. In both write modes the outputs follow
the board, and the poll publishes what the board showed at its read.
-/

namespace PolishingRobot.Crevis

open PolishingRobot.Lists (mapM_eq_some_iff)
open Runs

abbrev Board := ℕ → Bool

/-- What an accepted write sets. -/
def Pc.sets (c : Config) (board : Board) : Pc → Board
  | .writeCoil bit on | .writeRegister (.command bit on) => Function.update board bit on
  | .writeRegister .shutdown => fun i => if (i : Int) ∈ c.shutdownBits then false else board i
  | .shutdownCoils bit _ => fun i => if (i : Int) = bit then false else board i
  | _ => board

/-- The board now, and at the last read of the coils. -/
structure Boards where
  now : Board
  seen : Board

def boardAfter (c : Config) (s : State) (l : Label) (board : Board) : Board :=
  match l with
  | .change outputs => outputs.getLsbD
  | l => if (transacted s l).any (·.acted) then s.pc.sets c board else board

def noteBoards (c : Config) (w : Observed) (l : Label) (b : Boards) : Boards where
  now := boardAfter c w.1 l b.now
  seen := if (read c w.1 l).isSome then b.now else b.seen

/-- The node and its device beside the board. -/
def boardStep (c : Config) : Observed × Boards → Label → Option (Observed × Boards) :=
  observe (observedStep c) (noteBoards c)

/-- The messages about the outputs, read off the board. -/
def boardPublication (c : Config) (board : Board) : Publication where
  ledStates := c.leds.map fun l => (l.name, board l.bit.toNat)
  mask := ledMask (c.leds.map fun l => (l, board l.bit.toNat))
  chargePortOn := board c.chargingBit.toNat

def State.Shows (s : State) (board : Board) : Prop := ∀ i < 16, s.outputs.getLsbD i = board i

/-- The outputs are as the board says, a poll publishes the board at its read,
and a command that reports success has set its switch. -/
structure FollowsBoard (c : Config) (w : Observed × Boards) (l : Label) (w' : Observed × Boards) :
    Prop where
  shows : w'.1.1.Shows w'.2.now
  publishes : ∀ coils, published c w.1.1 l = some coils →
    publication c coils = some (boardPublication c w'.2.seen)
  succeeds : ∀ t bit on, transacted w.1.1 l = some t → t.ok = true →
    (w.1.1.pc = .writeCoil bit on ∨ w.1.1.pc = .writeRegister (.command bit on)) →
    w'.1.1.outputs.getLsbD bit = on

variable {c : Config} {s s' : State} {l : Label} {o : Outcome} {t : Transacted} {board : Board}

theorem getLsbD_switch (outputs : BitVec 16) (bit : ℕ) (on : Bool) {i : ℕ} (hi : i < 16) :
    (if on then outputs ||| 1#16 <<< bit else outputs &&& ~~~(1#16 <<< bit)).getLsbD i =
      if i = bit then on else outputs.getLsbD i := by
  have hone : (1#16 <<< bit).getLsbD i = decide (i = bit) := by
    rw [BitVec.getLsbD_shiftLeft, BitVec.getLsbD_one]
    by_cases hlt : i < bit
    · simp [hlt, hlt.ne]
    · have hsub : i - bit = 0 ↔ i = bit := by omega
      simp [hi, hlt, hsub]
  cases on with
  | true =>
      rw [if_pos rfl, BitVec.getLsbD_or, hone]
      by_cases hbit : i = bit <;> simp [hbit]
  | false =>
      rw [if_neg Bool.false_ne_true, BitVec.getLsbD_and, BitVec.getLsbD_not, hone]
      by_cases hbit : i = bit <;> simp [hbit, hi]

/-- The address of a coil of the module gives back its bit. -/
theorem coil_bit (base : Int) {bit : Int} (h : InModule bit) :
    (((UInt16.ofInt (base + bit) - UInt16.ofInt base).toNat : ℕ) : Int) = bit := by
  have hbit := toNat_ofInt (base + bit)
  have hbase := toNat_ofInt base
  rw [UInt16.toNat_sub]
  obtain ⟨hlow, hhigh⟩ := h
  omega

/-- A coil write sets one switch. -/
theorem effect_writeSingleCoil (c : Config) (outputs : BitVec 16) {bit : Int} (h : InModule bit)
    (on : Bool) {i : ℕ} (hi : i < 16) :
    (Request.effect c outputs (.writeSingleCoil (UInt16.ofInt (c.coilBase + bit)) on)).getLsbD i =
      if (i : Int) = bit then on else outputs.getLsbD i := by
  have hcoil := coil_bit c.coilBase h
  rw [Request.effect, getLsbD_switch _ _ _ hi]
  have hsame : i = (UInt16.ofInt (c.coilBase + bit) - UInt16.ofInt c.coilBase).toNat ↔
      (i : Int) = bit := by omega
  simp only [hsame]

/-- An accepted request makes the outputs what the board then says. -/
theorem effect_shows (hbits : ∀ bit ∈ c.bits, InModule bit) (hplaced : Placed c s.pc)
    {r : Request} (hr : s.request c = some r)
    (hregister : ∀ p, s.pc = .writeRegister p → ∃ value, s.registerValue = some value ∧
      ∀ i < 16, value.getLsbD i = p.wanted c s.outputs i)
    (hshows : s.Shows board) :
    ∀ i < 16, (r.effect c s.outputs).getLsbD i = s.pc.sets c board i := by
  intro i hi
  cases hpc : s.pc with
  | idle | pollOpen | done => simp [State.request, hpc] at hr
  | sync p =>
      simp only [State.request, hpc, Option.some.injEq] at hr
      subst hr
      exact hshows i hi
  | pollCoils =>
      simp only [State.request, hpc, Option.some.injEq] at hr
      subst hr
      exact hshows i hi
  | pollRegs coils =>
      simp only [State.request, hpc, Option.some.injEq] at hr
      subst hr
      exact hshows i hi
  | writeCoil bit on =>
      rw [hpc] at hplaced
      simp only [State.request, hpc, Option.some.injEq] at hr
      subst hr
      rw [effect_writeSingleCoil c _ (hbits bit hplaced.2.1) on hi, Pc.sets, Function.update_apply,
        hshows i hi]
      simp only [Nat.cast_inj]
  | shutdownCoils bit rest =>
      rw [hpc] at hplaced
      have hbit := hbits bit (bits_of_shutdownBits (hplaced.2 bit (by simp)))
      simp only [State.request, hpc, Option.some.injEq] at hr
      subst hr
      rw [effect_writeSingleCoil c _ hbit false hi, Pc.sets, hshows i hi]
  | writeRegister p =>
      obtain ⟨value, hvalue, hwanted⟩ := hregister p hpc
      simp only [State.request, hpc, hvalue, Option.getD_some, Option.some.injEq] at hr
      subst hr
      rw [Request.effect, if_pos rfl, hwanted i hi]
      cases p with
      | command bit on =>
          rw [Pc.sets, Function.update_apply, ← hshows i hi]
          rfl
      | shutdown => simp only [Pc.sets, Purpose.wanted, hshows i hi]

/-- A complete answer to a read of coils. -/
theorem coilOn_coilsRead (outputs : BitVec 16) {qty : UInt16} {beyond : List Bool}
    (hcomplete : qty.toNat ≤ 16 + beyond.length) {bit : Int} (h : InModule bit)
    (hqty : bit < qty.toNat) :
    coilOn (coilsRead outputs qty beyond) bit = some (outputs.getLsbD bit.toNat) := by
  obtain ⟨hlow, hhigh⟩ := h
  have hlength : (coilsRead outputs qty beyond).length = qty.toNat := by
    rw [coilsRead, List.length_take, List.length_append, List.length_ofFn,
      Nat.min_eq_left hcomplete]
  have hbit : bit.toNat < 16 := by omega
  have hin : bit.toNat < qty.toNat := by omega
  rw [coilOn, hlength, if_pos hqty, if_pos hlow, coilsRead, List.getElem?_take, if_pos hin,
    List.getElem?_append_left (by simpa using hbit), List.getElem?_ofFn, dif_pos hbit]

/-- Coils that show the board at every bit of the parameters. -/
def ShowBoard (c : Config) (coils : List Bool) (board : Board) : Prop :=
  ∀ bit ∈ c.bits, coilOn coils bit = some (board bit.toNat)

theorem publication_of_showBoard {coils : List Bool} (h : ShowBoard c coils board) :
    publication c coils = some (boardPublication c board) := by
  have hleds : (c.leds.mapM fun l => (coilOn coils l.bit).map fun on => (l, on)) =
      some (c.leds.map fun l => (l, board l.bit.toNat)) := by
    rw [mapM_eq_some_iff, List.map_map]
    apply List.map_congr_left
    intro l hl
    have hbit : l.bit ∈ c.bits := List.mem_append_left _ (List.mem_map_of_mem hl)
    rw [h l.bit hbit]
    rfl
  have hcharging : c.chargingBit ∈ c.bits := List.mem_append_right _ (List.mem_singleton_self _)
  rw [publication, hleds, Option.bind_some, h _ hcharging, Option.map_some, boardPublication]
  simp

/-- The poll asks for every coil of the parameters. -/
theorem bit_lt_readback {leds : List Led} {n : Int} (hn : n ≤ 16) (h : ∀ l ∈ leds, l.bit < 16) :
    n ≤ leds.foldl (fun n l => max n (l.bit + 1)) n ∧
      leds.foldl (fun n l => max n (l.bit + 1)) n ≤ 16 ∧
      ∀ l ∈ leds, l.bit < leds.foldl (fun n l => max n (l.bit + 1)) n := by
  induction leds generalizing n with
  | nil => simp [hn]
  | cons l leds ih =>
      have hl := h l (by simp)
      have hnext : max n (l.bit + 1) ≤ 16 := by omega
      obtain ⟨hle, hhigh, hleds⟩ := ih hnext fun l hl => h l (List.mem_cons_of_mem _ hl)
      rw [List.foldl_cons]
      refine ⟨by omega, hhigh, ?_⟩
      intro l' hl'
      rcases List.mem_cons.mp hl' with rfl | hl'
      · omega
      · exact hleds l' hl'

variable {p : Parameters}

theorem readback_covers (hbits : ∀ bit ∈ (loadConfig p).bits, InModule bit) :
    (∀ bit ∈ (loadConfig p).bits, bit < (loadConfig p).readbackQty.toNat) ∧
      (p.registerMode = true → 16 ≤ (loadConfig p).readbackQty.toNat) := by
  have hcharging : InModule p.chargingBit := hbits _ (by simp [Config.bits, loadConfig])
  have hleds : ∀ l ∈ loadLeds p.leds, l.bit < 16 := by
    intro l hl
    exact (hbits l.bit (List.mem_append_left _ (List.mem_map_of_mem hl))).2
  obtain ⟨hpos, hhigh, hcovers⟩ := bit_lt_readback (n := 1) (by decide) hleds
  obtain ⟨hlow, hlt⟩ := hcharging
  have hqty := toNat_ofInt (loadConfig p).readbackNb
  rw [← Config.readbackQty] at hqty
  have hnb : (loadConfig p).readbackNb =
      loadReadbackNb (loadLeds p.leds) p.chargingBit p.registerMode := rfl
  rw [loadReadbackNb] at hnb
  constructor
  · intro bit hbit
    have hbelow : bit < max (List.foldl (fun n l => max n (l.bit + 1)) 1 (loadLeds p.leds))
        (p.chargingBit + 1) := by
      rcases List.mem_append.mp hbit with hled | hcharging
      · obtain ⟨l, hl, rfl⟩ := List.mem_map.mp hled
        have := hcovers l hl
        omega
      · obtain rfl : bit = p.chargingBit := List.mem_singleton.mp hcharging
        omega
    split_ifs at hnb <;> omega
  · intro hmode
    rw [if_pos hmode] at hnb
    omega

@[simp] theorem prepare_outputs (p : Purpose) : (s.prepare c p).outputs = s.outputs := by
  cases p <;> rfl

@[simp] theorem shutdownCoils_outputs (bits : List Int) :
    (s.shutdownCoils bits).outputs = s.outputs := by
  cases bits <;> rfl

@[simp] theorem writeOutput_outputs (bit : Int) (on : Bool) :
    (s.writeOutput c bit on).outputs = s.outputs := by
  unfold State.writeOutput
  split_ifs <;> simp

@[simp] theorem onShutdown_outputs : (s.onShutdown c).outputs = s.outputs := by
  unfold State.onShutdown
  split_ifs <;> simp [State.close]

@[simp] theorem resume_outputs (ok : Bool) (coils : Option (List Bool)) :
    (s.resume c ok coils).outputs = s.outputs := by
  unfold State.resume
  cases s.pc with
  | sync p =>
      cases coils with
      | none => cases p <;> rfl
      | some coils => exact prepare_outputs p
  | writeRegister p => cases p <;> rfl
  | pollCoils =>
      cases coils with
      | none => rfl
      | some coils =>
          dsimp only
          split_ifs <;> rfl
  | shutdownCoils bit rest => exact shutdownCoils_outputs rest
  | _ => rfl

/-- Where a step leads. -/
inductive Leads (c : Config) (s : State) (l : Label) : Pc → Prop
  | stays (hread : read c s l = none) : Leads c s l s.pc
  | idle : Leads c s l .idle
  | done : Leads c s l .done
  | pollOpen : Leads c s l .pollOpen
  | pollCoils : Leads c s l .pollCoils
  | pollRegs (o : Outcome) (hpc : s.pc = .pollCoils) (hl : l = .transaction o) :
      Leads c s l (.pollRegs (s.answer c o))
  | sync (p : Purpose) (hmode : c.registerMode = true) : Leads c s l (.sync p)
  | writeRegister (p : Purpose) (h : c.registerMode = true ∨ s.pc = .sync p) :
      Leads c s l (.writeRegister p)
  | writeCoil (bit : ℕ) (on : Bool) : Leads c s l (.writeCoil bit on)
  | shutdownCoils (bit : Int) (rest : List Int) : Leads c s l (.shutdownCoils bit rest)

theorem prepare_leads {u : State} (p : Purpose) (h : c.registerMode = true ∨ s.pc = .sync p) :
    Leads c s l (u.prepare c p).pc := by
  cases p <;> exact .writeRegister _ h

theorem shutdownCoils_leads {u : State} (bits : List Int) :
    Leads c s l (u.shutdownCoils bits).pc := by
  cases bits with
  | nil => exact .done
  | cons bit rest => exact .shutdownCoils bit rest

theorem writeOutput_leads (hread : read c s l = none) (bit : Int) (on : Bool) :
    Leads c s l (s.writeOutput c bit on).pc := by
  unfold State.writeOutput
  split_ifs with hrange hmode hvalid
  · exact .stays hread
  · exact prepare_leads _ (.inl hmode)
  · exact .sync _ hmode
  · exact .writeCoil _ _

theorem onShutdown_leads : Leads c s l (s.onShutdown c).pc := by
  unfold State.onShutdown
  split_ifs with hmode
  · exact prepare_leads _ (.inl hmode)
  · exact .sync _ hmode
  · exact .done
  · exact shutdownCoils_leads _

/-- What follows a transaction. -/
theorem resume_leads {u : State} (hpc : u.pc = s.pc) {r : Request} (hr : s.request c = some r)
    (o : Outcome) (ok : Bool) :
    Leads c s (.transaction o) (u.resume c ok (s.answer c o)).pc := by
  unfold State.resume
  rw [hpc]
  cases hs : s.pc with
  | sync p =>
      cases s.answer c o with
      | none => cases p with
        | command bit on => exact .idle
        | shutdown => exact .done
      | some coils => exact prepare_leads p (.inr hs)
  | writeRegister p => cases p with
    | command bit on => exact .idle
    | shutdown => exact .done
  | writeCoil bit on => exact .idle
  | pollCoils =>
      dsimp only
      split_ifs
      · exact .pollRegs o hs rfl
      · exact .idle
  | pollRegs coils => exact .idle
  | shutdownCoils bit rest => exact shutdownCoils_leads rest
  | idle | pollOpen | done => simp [State.request, hs] at hr

theorem step_leads (hstep : step c s l = some s') : Leads c s l s'.pc := by
  cases l with
  | led l on =>
      obtain ⟨-, hs'⟩ := Option.ite_none_right_eq_some.mp hstep
      obtain rfl := Option.some.inj hs'
      exact writeOutput_leads rfl l.bit on
  | charging on =>
      obtain ⟨-, hs'⟩ := Option.ite_none_right_eq_some.mp hstep
      obtain rfl := Option.some.inj hs'
      exact writeOutput_leads rfl c.chargingBit on
  | poll =>
      obtain ⟨-, hs'⟩ := Option.ite_none_right_eq_some.mp hstep
      obtain rfl := Option.some.inj hs'
      dsimp only
      split_ifs
      · exact .pollOpen
      · exact .pollCoils
  | shutdown =>
      obtain ⟨-, hs'⟩ := Option.ite_none_right_eq_some.mp hstep
      obtain rfl := Option.some.inj hs'
      exact onShutdown_leads
  | connect ok =>
      obtain ⟨-, hs'⟩ := Option.ite_none_right_eq_some.mp hstep
      obtain rfl := Option.some.inj hs'
      exact .pollCoils
  | transaction o =>
      obtain ⟨-, hs'⟩ := Option.ite_none_right_eq_some.mp hstep
      obtain ⟨r, hr, hs'⟩ := Option.bind_eq_some_iff.mp hs'
      obtain ⟨t, -, rfl⟩ := Option.map_eq_some_iff.mp hs'
      refine resume_leads ?_ hr o t.ok
      rfl
  | lose =>
      obtain ⟨-, hs'⟩ := Option.ite_none_right_eq_some.mp hstep
      obtain rfl := Option.some.inj hs'
      exact .stays rfl
  | change outputs =>
      obtain ⟨-, hs'⟩ := Option.ite_none_left_eq_some.mp hstep
      obtain rfl := Option.some.inj hs'
      exact .stays rfl

/-- In coil mode the register is not used. -/
def CoilMode (pc : Pc) : Prop :=
  match pc with
  | .sync _ | .writeRegister _ => False
  | _ => True

theorem step_coilMode (hmode : c.registerMode = false) (h : CoilMode s.pc)
    (hstep : step c s l = some s') : CoilMode s'.pc := by
  have hleads := step_leads hstep
  generalize s'.pc = pc at hleads
  cases hleads with
  | stays => exact h
  | sync p hregister =>
      rw [hmode] at hregister
      cases hregister
  | writeRegister p hregister =>
      rcases hregister with hregister | hsync
      · rw [hmode] at hregister
        cases hregister
      · rw [hsync] at h
        exact h
  | _ => trivial

/-- The board shows the outputs, and the coils that a poll holds are those of its read. -/
structure BoardInvariant (c : Config) (w : Observed × Boards) : Prop where
  placed : Placed c w.1.1.pc
  shadow : c.registerMode = true → ShadowInvariant c w.1
  coilMode : c.registerMode = false → CoilMode w.1.1.pc
  shows : w.1.1.Shows w.2.now
  holds : ∀ coils, w.1.1.pc = .pollRegs (some coils) → ShowBoard c coils w.2.seen

/-- The register value carries the other outputs unchanged. -/
theorem BoardInvariant.register {w : Observed × Boards} (h : BoardInvariant c w)
    (ht : transact w.1.1.link o = some t) (hacted : t.acted = true) {q : Purpose}
    (hpc : w.1.1.pc = .writeRegister q) :
    ∃ value, w.1.1.registerValue = some value ∧
      ∀ i < 16, value.getLsbD i = q.wanted c w.1.1.outputs i := by
  cases hmode : c.registerMode with
  | true => exact write_good w.1 (.transaction o) w.1 (h.shadow hmode) q t hpc ht hacted
  | false =>
      have hcoil := h.coilMode hmode
      rw [hpc] at hcoil
      exact hcoil.elim

/-- The outputs follow the board. -/
theorem BoardInvariant.shows_after {w : Observed × Boards} (h : BoardInvariant c w)
    (hbits : ∀ bit ∈ c.bits, InModule bit) (hstep : step c w.1.1 l = some s') :
    s'.Shows (boardAfter c w.1.1 l w.2.now) := by
  cases l with
  | led l on =>
      obtain ⟨-, hs'⟩ := Option.ite_none_right_eq_some.mp hstep
      obtain rfl := Option.some.inj hs'
      intro i hi
      rw [writeOutput_outputs]
      exact h.shows i hi
  | charging on =>
      obtain ⟨-, hs'⟩ := Option.ite_none_right_eq_some.mp hstep
      obtain rfl := Option.some.inj hs'
      intro i hi
      rw [writeOutput_outputs]
      exact h.shows i hi
  | poll =>
      obtain ⟨-, hs'⟩ := Option.ite_none_right_eq_some.mp hstep
      obtain rfl := Option.some.inj hs'
      exact h.shows
  | shutdown =>
      obtain ⟨-, hs'⟩ := Option.ite_none_right_eq_some.mp hstep
      obtain rfl := Option.some.inj hs'
      intro i hi
      rw [onShutdown_outputs]
      exact h.shows i hi
  | connect ok =>
      obtain ⟨-, hs'⟩ := Option.ite_none_right_eq_some.mp hstep
      obtain rfl := Option.some.inj hs'
      exact h.shows
  | transaction o =>
      obtain ⟨-, hs'⟩ := Option.ite_none_right_eq_some.mp hstep
      obtain ⟨r, hr, hs'⟩ := Option.bind_eq_some_iff.mp hs'
      obtain ⟨t, ht, rfl⟩ := Option.map_eq_some_iff.mp hs'
      intro i hi
      rw [resume_outputs]
      have hboard : boardAfter c w.1.1 (.transaction o) w.2.now =
          if t.acted then w.1.1.pc.sets c w.2.now else w.2.now := by
        simp [boardAfter, transacted, ht]
      rw [hboard]
      by_cases hacted : t.acted = true
      · rw [if_pos hacted, if_pos hacted]
        exact effect_shows hbits h.placed hr (fun q hpc => h.register ht hacted hpc) h.shows i hi
      · rw [if_neg hacted, if_neg hacted]
        exact h.shows i hi
  | lose =>
      obtain ⟨-, hs'⟩ := Option.ite_none_right_eq_some.mp hstep
      obtain rfl := Option.some.inj hs'
      exact h.shows
  | change outputs =>
      obtain ⟨-, hs'⟩ := Option.ite_none_left_eq_some.mp hstep
      obtain rfl := Option.some.inj hs'
      intro i hi
      rfl

/-- Coils that a poll has read show the board. -/
theorem BoardInvariant.showBoard {w : Observed × Boards} (h : BoardInvariant c w)
    (hbits : ∀ bit ∈ c.bits, InModule bit) (hqty : ∀ bit ∈ c.bits, bit < c.readbackQty.toNat)
    (hpc : w.1.1.pc = .pollCoils) (hcompletes : o.completes (w.1.1.request c) = true)
    {coils : List Bool} (hanswer : w.1.1.answer c o = some coils) :
    ShowBoard c coils w.2.now := by
  obtain ⟨addr, qty, beyond, hrequest, rfl, rfl⟩ := answer_eq_some hanswer
  rw [hrequest] at hcompletes
  obtain rfl : c.readbackQty = qty := by
    simp only [State.request, hpc, Option.some.injEq, Request.readCoils.injEq] at hrequest
    exact hrequest.2
  have hcomplete : c.readbackQty.toNat ≤ 16 + beyond.length := of_decide_eq_true hcompletes
  intro bit hbit
  have hmodule := hbits bit hbit
  have hlt : bit.toNat < 16 := by
    obtain ⟨hlow, hhigh⟩ := hmodule
    omega
  rw [coilOn_coilsRead w.1.1.outputs hcomplete hmodule (hqty bit hbit), h.shows _ hlt]

/-- In register mode commands find a current shadow. -/
def ShadowUsedWell (c : Config) (w : Observed × Boards) (l : Label) (w' : Observed × Boards) :
    Prop :=
  c.registerMode = true → CurrentShadow w.1 l w'.1

section Loaded

variable {p : Parameters}

theorem step_completes (hstep : step c s (.transaction o) = some s') :
    o.completes (s.request c) = true :=
  (Option.ite_none_right_eq_some.mp hstep).1

theorem board_invariant_step (hbits : ∀ bit ∈ (loadConfig p).bits, InModule bit)
    (w : Observed × Boards) (l : Label) (w' : Observed × Boards)
    (h : BoardInvariant (loadConfig p) w) (hshadow : ShadowUsedWell (loadConfig p) w l w')
    (hstep : boardStep (loadConfig p) w l = some w') : BoardInvariant (loadConfig p) w' := by
  obtain ⟨w, b⟩ := w
  obtain ⟨w', b'⟩ := w'
  obtain ⟨hobserved, rfl⟩ := observe_eq_some hstep
  obtain ⟨s, current⟩ := w
  obtain ⟨s', current'⟩ := w'
  obtain ⟨hs, -⟩ := observe_eq_some hobserved
  obtain ⟨hqty, hregister⟩ := readback_covers hbits
  have hshutdown : ∀ bit ∈ (loadConfig p).shutdownBits, 0 ≤ bit ∧ bit < 32 := by
    intro bit hbit
    obtain ⟨hlow, hhigh⟩ := hbits bit (bits_of_shutdownBits hbit)
    exact ⟨hlow, by omega⟩
  constructor
  · exact step_placed h.placed hs
  · intro hmode
    exact step_invariant hmode (hregister hmode) hshutdown _ l _ (h.shadow hmode) (hshadow hmode)
      hobserved
  · intro hmode
    exact step_coilMode hmode (h.coilMode hmode) hs
  · exact h.shows_after hbits hs
  · intro coils hpc
    have hleads := step_leads hs
    rw [hpc] at hleads
    generalize hnext : Pc.pollRegs (some coils) = pc at hleads
    cases hleads with
    | stays hread =>
        have hseen : (noteBoards (loadConfig p) (s, current) l b).seen = b.seen := by
          rw [noteBoards, hread]
          rfl
        rw [hseen]
        exact h.holds coils hnext.symm
    | pollRegs o hpolls hl =>
        subst hl
        have hanswer : s.answer (loadConfig p) o = some coils := (Pc.pollRegs.inj hnext).symm
        have hseen : (noteBoards (loadConfig p) (s, current) (.transaction o) b).seen = b.now := by
          rw [noteBoards, read, hanswer]
          rfl
        rw [hseen]
        exact h.showBoard hbits hqty hpolls (step_completes hs) hanswer
    | _ => cases hnext

theorem followsBoard_step (hbits : ∀ bit ∈ (loadConfig p).bits, InModule bit)
    (w : Observed × Boards) (l : Label) (w' : Observed × Boards)
    (h : BoardInvariant (loadConfig p) w) (hshadow : ShadowUsedWell (loadConfig p) w l w')
    (hstep : boardStep (loadConfig p) w l = some w') : FollowsBoard (loadConfig p) w l w' := by
  have hnext := board_invariant_step hbits w l w' h hshadow hstep
  obtain ⟨w, b⟩ := w
  obtain ⟨w', b'⟩ := w'
  obtain ⟨hobserved, rfl⟩ := observe_eq_some hstep
  obtain ⟨s, current⟩ := w
  obtain ⟨s', current'⟩ := w'
  obtain ⟨hs, -⟩ := observe_eq_some hobserved
  obtain ⟨hqty, -⟩ := readback_covers hbits
  refine ⟨hnext.shows, ?_, ?_⟩
  · intro coils hpublished
    apply publication_of_showBoard
    cases l with
    | transaction o =>
        rw [published] at hpublished
        split at hpublished
        · rename_i held hpc
          have hpc : s.pc = .pollRegs held := hpc
          have hread : read (loadConfig p) s (.transaction o) = none := by
            simp [read, State.answer, State.request, hpc]
          have hseen :
              (noteBoards (loadConfig p) (s, current) (.transaction o) b).seen = b.seen := by
            rw [noteBoards, hread]
            rfl
          rw [hseen]
          rw [hpublished] at hpc
          exact h.holds coils hpc
        · rename_i hpc
          obtain ⟨-, hanswer⟩ := Option.ite_none_left_eq_some.mp hpublished
          have hseen :
              (noteBoards (loadConfig p) (s, current) (.transaction o) b).seen = b.now := by
            rw [noteBoards, read, hanswer]
            rfl
          rw [hseen]
          exact h.showBoard hbits hqty hpc (step_completes hs) hanswer
        · cases hpublished
    | _ => cases hpublished
  · intro t bit on ht hok hpc
    have hlt : bit < 16 := by
      have hplaced := h.placed
      rcases hpc with hpc | hpc
      · rw [hpc] at hplaced
        exact hplaced.2.2
      · rw [hpc] at hplaced
        exact hplaced
    have hacted : (transacted s l).any (·.acted) = true := by
      cases l with
      | transaction o => rw [ht, Option.any_some, acted_of_ok ht hok]
      | _ => cases ht
    have hnow : boardAfter (loadConfig p) s l b.now = Function.update b.now bit on := by
      cases l with
      | transaction o =>
          rw [boardAfter, if_pos hacted]
          rcases hpc with hpc | hpc <;> rw [hpc, Pc.sets]
          all_goals
            intro outputs hl
            cases hl
      | _ => cases ht
    have hshows : s'.outputs.getLsbD bit = boardAfter (loadConfig p) s l b.now bit :=
      hnext.shows bit hlt
    rw [hshows, hnow, Function.update_self]

/-- In every run of commands, polls, shutdown, failing transactions and outputs that change
while there is no connection, and in both write modes, the outputs are what the last accepted
write or the last change made them, the poll publishes what they were at its read, and a command
that reports success has set its output. In register mode this asks that commands find the shadow
invalid or current. -/
theorem outputs_follow_commands (p : Parameters)
    (hbits : ∀ bit ∈ (loadConfig p).bits, InModule bit) (outputs : BitVec 16) (ls : List Label)
    (hcurrent : p.registerMode = true →
      Along (observedStep (loadConfig p)) CurrentShadow (start outputs, false) ls) :
    Along (boardStep (loadConfig p)) (FollowsBoard (loadConfig p))
      ((start outputs, false), ⟨outputs.getLsbD, outputs.getLsbD⟩) ls := by
  have hstart : BoardInvariant (loadConfig p)
      ((start outputs, false), ⟨outputs.getLsbD, outputs.getLsbD⟩) :=
    ⟨trivial, fun _ _ => ⟨nofun, fun h => nomatch h⟩, fun _ => trivial, fun _ _ => rfl, nofun⟩
  have hshadow : Along (boardStep (loadConfig p)) (ShadowUsedWell (loadConfig p))
      ((start outputs, false), ⟨outputs.getLsbD, outputs.getLsbD⟩) ls := by
    cases hmode : (loadConfig p).registerMode with
    | true =>
        apply Along.imp fun _ _ _ hused _ => hused
        exact along_observe (noteBoards (loadConfig p)) (hcurrent hmode) _
    | false =>
        refine along_of_forall ?_ _ ls
        intro w l w' _ hregister
        rw [hmode] at hregister
        cases hregister
  exact along_of_invariant (board_invariant_step hbits) (followsBoard_step hbits) hstart hshadow

theorem default_inModule : ∀ bit ∈ (loadConfig {}).bits, InModule bit := by
  unfold InModule
  decide

/-- A lamp and the relay, each mode with a reboot in between. -/
theorem outputs_follow_commands_reboot :
    Along (boardStep (loadConfig {})) (FollowsBoard (loadConfig {}))
        ((start 0, false), ⟨(0#16).getLsbD, (0#16).getLsbD⟩)
        [.led ⟨"vision", 0⟩ true, .transaction (.answered []), .lose, .change 0, .charging true,
          .transaction (.broken false), .charging true, .transaction (.answered []), .poll,
          .transaction (.answered []), .transaction (.answered []), .shutdown,
          .transaction (.answered [])] ∧
      Along (boardStep (loadConfig { writeMode := "register" }))
        (FollowsBoard (loadConfig { writeMode := "register" }))
        ((start 0, false), ⟨(0#16).getLsbD, (0#16).getLsbD⟩) rebootNoticed :=
  ⟨outputs_follow_commands {} default_inModule 0 _ nofun,
    outputs_follow_commands { writeMode := "register" } default_inModule 0 rebootNoticed
      fun _ => by decide⟩

end Loaded

end PolishingRobot.Crevis
