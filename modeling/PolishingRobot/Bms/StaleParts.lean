import PolishingRobot.Bms.Driver
import PolishingRobot.Runs.LabelledRuns

/-!
# Parts of the battery state that are stale

Four kinds of reply make up the published status and health, and the stamp of
one of them decides whether they are published. The log says when the newest
reply of each kind was received.
-/

namespace PolishingRobot.Bms

open Motor (CanFrame)
open Runs

variable {c : Config} {now : Time} {s : State} {f : CanFrame}

/-- The newest reply of each kind with the time of its reception. -/
abbrev ReplyLog := UInt8 → Option (Time × CanFrame)

/-- The log after a callback. -/
def ReplyLog.after (c : Config) (_ : State) (e : Event) (log : ReplyLog) : ReplyLog :=
  match e with
  | .can now f =>
      match replyId c f with
      | some dataId => Function.update log dataId (some (now, f))
      | none => log
  | .poll | .publish _ _ => log

/-- The driver with its log. -/
def logged (c : Config) : State × ReplyLog → Event → Option (State × ReplyLog) :=
  observe (total (step c)) (ReplyLog.after c)

/-- The newest reply of a kind is younger than the timeout, and says `P`. -/
def ReplyLog.Says (log : ReplyLog) (c : Config) (now : Time) (dataId : UInt8)
    (P : CanFrame → Prop) : Prop :=
  ∃ rxTime f, log dataId = some (rxTime, f) ∧ now - rxTime < c.timeoutSec ∧ P f

/-- The newest reply of a kind is younger than the timeout. -/
def ReplyLog.Recent (log : ReplyLog) (c : Config) (now : Time) (dataId : UInt8) : Prop :=
  log.Says c now dataId fun _ => True

/-- A byte of the newest reply of a kind; 0 before there is one. -/
def ReplyLog.byte (log : ReplyLog) (dataId : UInt8) (i : Nat) : UInt8 :=
  match log dataId with
  | some (_, f) => f.byte i
  | none => 0

/-- What the message says of status and health rests on recent replies: good
health on a newest fault reply without a fault, and a status on the reply that it
is read from. Without recent replies it is unknown. -/
structure Vouched (c : Config) (now : Time) (log : ReplyLog) (m : BatteryState) : Prop where
  good : m.powerSupplyHealth = .good →
    log.Says c now idFaults fun f => reportsFault f = false
  health : m.powerSupplyHealth ≠ .unknown → log.Recent c now idFaults
  charging : m.powerSupplyStatus = .charging →
    (log.Says c now idConnections fun f => f.byte 2 = 1) ∨
      log.Says c now idChargeState fun f => f.byte 0 = 1
  discharging : m.powerSupplyStatus = .discharging →
    log.Says c now idChargeState fun f => f.byte 0 = 2
  status : m.powerSupplyStatus ≠ .unknown →
    log.Recent c now idChargeState ∨ log.Recent c now idConnections

/-- While the newest pack reply is recent, so is the newest fault reply, and the
newest reply that the status is read from. -/
def PartsKeepUp (c : Config) (now : Time) (log : ReplyLog) : Prop :=
  log.Recent c now idPack →
    log.Recent c now idFaults ∧
      if log.byte idConnections 2 = 1 ∨ log.byte idChargeState 0 = 1 then
        (log.byte idConnections 2 = 1 ∧ log.Recent c now idConnections) ∨
          (log.byte idChargeState 0 = 1 ∧ log.Recent c now idChargeState)
      else if log.byte idChargeState 0 = 2 then log.Recent c now idChargeState
      else log.Recent c now idChargeState ∨ log.Recent c now idConnections

/-- A publication rests on recent replies. -/
def PublishesVouched (c : Config) (w : State × ReplyLog) : Event → Prop
  | .publish stamp now => Vouched c now w.2 (publishTimer c stamp now w.1).1
  | .poll | .can _ _ => True

/-- At a publication the parts keep up with the pack reply. -/
def PublishesInTime (c : Config) (w : State × ReplyLog) : Event → Prop
  | .publish _ now => PartsKeepUp c now w.2
  | .poll | .can _ _ => True

/-- The members are what the logged replies say. -/
structure Explains (log : ReplyLog) (s : State) : Prop where
  stamp : ∀ rxTime f, log idPack = some (rxTime, f) → s.gotData = true ∧ s.lastRx = rxTime
  silent : log idPack = none → s.gotData = false
  cdState : s.cdState = log.byte idChargeState 0
  chargerStatus : s.chargerStatus = log.byte idConnections 2
  faults : ∀ rxTime f, log idFaults = some (rxTime, f) → s.hasFault = reportsFault f

theorem start_explains : Explains (fun _ => none) {} where
  stamp := by simp
  silent _ := rfl
  cdState := rfl
  chargerStatus := rfl
  faults := by simp

/-- The stamp is fresh exactly if the newest pack reply is recent. -/
theorem Explains.fresh_iff {log : ReplyLog} (h : Explains log s) :
    isFresh c now s = true ↔ log.Recent c now idPack := by
  unfold ReplyLog.Recent ReplyLog.Says
  cases hpack : log idPack with
  | none =>
      have hsilent := h.silent hpack
      simp [isFresh, hsilent]
  | some reply =>
      obtain ⟨hgot, hlast⟩ := h.stamp reply.1 reply.2 hpack
      obtain ⟨rxTime, f⟩ := reply
      simp [isFresh, hgot, hlast]

theorem byte_update (log : ReplyLog) (dataId kind : UInt8) (f : CanFrame) (i : Nat) :
    ReplyLog.byte (Function.update log dataId (some (now, f))) kind i =
      if kind = dataId then f.byte i else log.byte kind i := by
  unfold ReplyLog.byte
  by_cases hkind : kind = dataId
  · subst hkind
    simp
  · simp [hkind]

/-- What a reply changes of the members that decide the status and the health. -/
theorem receive_fields (now : Time) (dataId : UInt8) (f : CanFrame) (s : State) :
    (receive now dataId f s).gotData = (decide (dataId = idPack) || s.gotData) ∧
      (receive now dataId f s).lastRx = (if idPack = dataId then now else s.lastRx) ∧
      (receive now dataId f s).cdState = (if idChargeState = dataId then f.byte 0 else s.cdState) ∧
      (receive now dataId f s).chargerStatus =
        (if idConnections = dataId then f.byte 2 else s.chargerStatus) ∧
      (receive now dataId f s).hasFault =
        (if idFaults = dataId then reportsFault f else s.hasFault) := by
  unfold receive
  split
  · rename_i hid
    subst hid
    exact ⟨by simp, rfl, rfl, rfl, rfl⟩
  rename_i hpack
  split
  · rename_i hid
    subst hid
    exact ⟨rfl, rfl, rfl, rfl, rfl⟩
  split
  · rename_i hid
    subst hid
    exact ⟨rfl, rfl, rfl, rfl, rfl⟩
  rename_i hcharge
  split
  · rename_i hid
    subst hid
    exact ⟨rfl, rfl, rfl, rfl, rfl⟩
  rename_i hconnections
  split
  · rename_i hid
    subst hid
    exact ⟨rfl, rfl, rfl, rfl, rfl⟩
  · rename_i hfaults
    rw [if_neg (Ne.symm hpack), if_neg (Ne.symm hcharge), if_neg (Ne.symm hconnections),
      if_neg (Ne.symm hfaults)]
    exact ⟨by simp [hpack], rfl, rfl, rfl, rfl⟩

/-- A reply keeps the log and the members together. -/
theorem Explains.receive {log : ReplyLog} (h : Explains log s) (now : Time) (dataId : UInt8)
    (f : CanFrame) :
    Explains (Function.update log dataId (some (now, f))) (receive now dataId f s) := by
  obtain ⟨hgot, hlast, hcd, hcharger, hfault⟩ := receive_fields now dataId f s
  refine ⟨?_, ?_, ?_, ?_, ?_⟩
  · intro rxTime g hg
    rw [hgot, hlast]
    by_cases hid : idPack = dataId
    · subst hid
      simp_all
    · rw [Function.update_of_ne hid] at hg
      simpa [hid, Ne.symm hid] using h.stamp rxTime g hg
  · intro hnone
    by_cases hid : idPack = dataId
    · subst hid
      simp at hnone
    · rw [Function.update_of_ne hid] at hnone
      simpa [hgot, Ne.symm hid] using h.silent hnone
  · rw [hcd, byte_update, h.cdState]
  · rw [hcharger, byte_update, h.chargerStatus]
  · intro rxTime g hg
    rw [hfault]
    by_cases hid : idFaults = dataId
    · subst hid
      simp_all
    · rw [Function.update_of_ne hid] at hg
      simpa [hid] using h.faults rxTime g hg

/-- Every callback keeps the log and the members together. -/
theorem Explains.step {log : ReplyLog} (h : Explains log s) (e : Event) :
    Explains (log.after c s e) (step c s e) := by
  cases e with
  | poll => exact h
  | publish stamp now => exact h
  | can now f =>
      dsimp only [ReplyLog.after, Bms.step, canCallback]
      cases replyId c f with
      | none => exact h
      | some dataId => exact h.receive now dataId f

theorem ReplyLog.Recent.byte {log : ReplyLog} {dataId : UInt8} (h : log.Recent c now dataId)
    (i : Nat) : log.Says c now dataId fun f => f.byte i = log.byte dataId i := by
  obtain ⟨rxTime, f, hlog, hyoung, -⟩ := h
  exact ⟨rxTime, f, hlog, hyoung, by simp [ReplyLog.byte, hlog]⟩

theorem ReplyLog.Says.byte {log : ReplyLog} {dataId v : UInt8} {i : Nat}
    (h : log.Says c now dataId fun f => f.byte i = v) :
    log.byte dataId i = v ∧ log.Recent c now dataId := by
  obtain ⟨rxTime, f, hlog, hyoung, hf⟩ := h
  exact ⟨by simpa [ReplyLog.byte, hlog] using hf, rxTime, f, hlog, hyoung, trivial⟩

/-- The recent reply says what the log's byte says. -/
theorem ReplyLog.Recent.vouches {log : ReplyLog} {dataId v : UInt8} {i : Nat}
    (h : log.Recent c now dataId) (hv : log.byte dataId i = v) :
    log.Says c now dataId fun f => f.byte i = v := hv ▸ h.byte i

/-- Nothing is said on stale data. -/
theorem vouched_of_stale {log : ReplyLog} (stamp : Time) (hstale : isFresh c now s = false) :
    Vouched c now log (publishTimer c stamp now s).1 := by
  constructor <;> simp [publishTimer, hstale]

/-- A publication rests on recent replies exactly if the parts keep up with the
pack reply. -/
theorem vouched_iff {log : ReplyLog} (h : Explains log s) (stamp : Time) :
    Vouched c now log (publishTimer c stamp now s).1 ↔ PartsKeepUp c now log := by
  cases hfresh : isFresh c now s with
  | false =>
      refine iff_of_true (vouched_of_stale stamp hfresh) ?_
      intro hpack
      rw [h.fresh_iff.mpr hpack] at hfresh
      cases hfresh
  | true =>
      have hpack : log.Recent c now idPack := h.fresh_iff.mp hfresh
      have hhealth : (publishTimer c stamp now s).1.powerSupplyHealth =
          if s.hasFault then .unspecFailure else .good := by
        simp [publishTimer, hfresh]
      have hstatus : (publishTimer c stamp now s).1.powerSupplyStatus = freshStatus s := by
        simp [publishTimer, hfresh]
      unfold freshStatus at hstatus
      rw [h.cdState, h.chargerStatus] at hstatus
      constructor
      · intro hv _
        refine ⟨?_, ?_⟩
        · apply hv.health
          rw [hhealth]
          split <;> simp
        split
        · rename_i hcharging
          rw [if_pos hcharging] at hstatus
          rcases hv.charging hstatus with hsays | hsays
          · exact .inl hsays.byte
          · exact .inr hsays.byte
        rename_i hcharging
        rw [if_neg hcharging] at hstatus
        split
        · rename_i hdischarging
          rw [if_pos hdischarging] at hstatus
          exact (hv.discharging hstatus).byte.2
        · rename_i hdischarging
          rw [if_neg hdischarging] at hstatus
          apply hv.status
          rw [hstatus]
          split <;> simp
      · intro hkeep
        obtain ⟨hfaults, hparts⟩ := hkeep hpack
        have hgood : (publishTimer c stamp now s).1.powerSupplyHealth = .good →
            log.Says c now idFaults fun f => reportsFault f = false := by
          intro hgood
          obtain ⟨rxTime, f, hlog, hyoung, -⟩ := hfaults
          have hclean : reportsFault f = false := by
            rw [← h.faults rxTime f hlog]
            by_contra hfault
            simp [hhealth, hfault] at hgood
          exact ⟨rxTime, f, hlog, hyoung, hclean⟩
        split at hparts
        · rename_i hcharging
          rw [if_pos hcharging] at hstatus
          refine ⟨hgood, fun _ => hfaults, ?_, by simp [hstatus], ?_⟩
          · intro _
            exact hparts.imp (fun h' => h'.2.vouches h'.1) fun h' => h'.2.vouches h'.1
          · intro _
            exact hparts.symm.imp And.right And.right
        rename_i hcharging
        rw [if_neg hcharging] at hstatus
        split at hparts
        · rename_i hdischarging
          rw [if_pos hdischarging] at hstatus
          exact ⟨hgood, fun _ => hfaults, by simp [hstatus], fun _ => hparts.vouches hdischarging,
            fun _ => .inl hparts⟩
        · rename_i hdischarging
          rw [if_neg hdischarging] at hstatus
          refine ⟨hgood, fun _ => hfaults, ?_, ?_, fun _ => hparts⟩
          · rw [hstatus]
            split <;> simp
          · rw [hstatus]
            split <;> simp

/-- Along every run of requests, replies and publications: what is published
rests on recent replies exactly if at each publication the parts keep up with the
pack reply. -/
theorem vouched_publications_iff (c : Config) (es : List Event) :
    Along (logged c) (fun w e _ => PublishesVouched c w e) ({}, fun _ => none) es ↔
      Along (logged c) (fun w e _ => PublishesInTime c w e) ({}, fun _ => none) es := by
  have keep : ∀ (w : State × ReplyLog) e w', Explains w.2 w.1 → logged c w e = some w' →
      Explains w'.2 w'.1 := by
    rintro ⟨s, log⟩ e ⟨s', log'⟩ h hstep
    obtain ⟨hs, rfl⟩ := observe_eq_some hstep
    obtain rfl := Option.some.inj hs
    exact h.step e
  have same : ∀ (w : State × ReplyLog) e w', Explains w.2 w.1 → logged c w e = some w' →
      (PublishesVouched c w e ↔ PublishesInTime c w e) := by
    rintro ⟨s, log⟩ e w' h -
    cases e with
    | publish stamp now => exact vouched_iff h stamp
    | poll => exact Iff.rfl
    | can now f => exact Iff.rfl
  exact along_iff_of_invariant keep same start_explains

def defaultConfig : Config := Config.ofParameters {}

/-- The pack voltage, at 75 %. -/
def packData : List UInt8 := [2, 0, 0, 0, 117, 48, 2, 238]

def packReply : CanFrame := ⟨0x98904001, packData.length, packData, by decide, rfl⟩

def packAlone : List Event := [.poll, .can 1 packReply]

/-- The pack reply alone makes the health good and the status known: no reply of
another kind has ever been received. -/
theorem good_health_unheard :
    let s := packAlone.foldl (step defaultConfig) {}
    (publishTimer defaultConfig 2 2 s).1.powerSupplyHealth = .good ∧
      (publishTimer defaultConfig 2 2 s).1.powerSupplyStatus = .notCharging ∧
      ¬ Along (logged defaultConfig) (fun w e _ => PublishesVouched defaultConfig w e)
        ({}, fun _ => none) (packAlone ++ [.publish 2 2]) := by
  intro s
  refine ⟨by decide +kernel, by decide +kernel, ?_⟩
  intro hvouched
  have hreply : replyId defaultConfig packReply = some idPack := by decide +kernel
  have hrun : run (logged defaultConfig) ({}, fun _ => none) packAlone =
      some (s, Function.update (fun _ => none) idPack (some (1, packReply))) := by
    simp [logged, observe, total, ReplyLog.after, hreply, s, packAlone, step]
  have hpublish : PublishesVouched defaultConfig _ (.publish 2 2) :=
    hvouched.after_prefix hrun rfl
  obtain ⟨rxTime, f, hlog, -⟩ := hpublish.good (by decide +kernel)
  cases hlog

end PolishingRobot.Bms
