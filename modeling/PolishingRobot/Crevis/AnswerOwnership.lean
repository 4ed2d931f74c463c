import PolishingRobot.Crevis.ModbusTcp

/-!
# Whose answer a call takes

A call takes the next frame off the connection, whoever it is for. The answers
belong to their requests as long as every frame that comes is one for the call
that takes it; one frame too many stays on the connection, and each later call
takes the answer of the call before.
-/

namespace PolishingRobot.Crevis.ModbusTcp

open Runs
open Safety (Exchange)
open Safety.ModbusTcpClient (be16 receiveAll receiveAll_eq_some requestBytes bodyLength
  IsException acceptsHeader acceptsHeader_iff bodyLength_mbapHeader frame Framed ConnectionLog
  Phased phased_extend)

/-- The bytes that the client can receive for its next request, if there is a connection. -/
def pending (x : Exchange) (cl : ModbusTcp) : Option (List UInt8) :=
  (if cl.socket = none ∧ x.opens then some [] else cl.socket).map (· ++ x.arrives)

/-- The client after it has sent a request. -/
def requested (pdu : List UInt8) (cl : ModbusTcp) : ModbusTcp :=
  { cl with
    tid := cl.tid + 1
    requests := cl.requests ++ [requestBytes (cl.tid + 1) cl.unit pdu] }

/-- A call on this connection takes a header and a body off it. -/
structure Consumes (x : Exchange) (cl : ModbusTcp) (header body rest : List UInt8) : Prop where
  sends : x.sends = true
  pending : cl.pending x = some (header ++ (body ++ rest))
  header_length : header.length = 7
  acceptable : acceptsLength header = true
  body_length : body.length = bodyLength header

/-- The header carries a transaction id, protocol id 0 and a unit id. -/
def Carries (tid : UInt16) (unit : UInt8) (header : List UInt8) : Prop :=
  be16 (header.getD 0 0) (header.getD 1 0) = tid ∧
    be16 (header.getD 2 0) (header.getD 3 0) = 0 ∧ header.getD 6 0 = unit

instance (tid : UInt16) (unit : UInt8) (header : List UInt8) :
    Decidable (Carries tid unit header) := inferInstanceAs (Decidable (_ ∧ _ ∧ _))

/-- The PDU is a Modbus exception for the request's function. -/
def ExceptionFor (q : Request) (body : List UInt8) : Prop := body.getD 0 0 = q.fc ||| 0x80

/-- A call that returns true has taken its own answer; one that fails has closed
the connection, or taken an exception that answers it. -/
structure OwnsAnswer (x : Exchange) (q : Request) (cl : ModbusTcp) : Prop where
  own : (cl.call x q).1 = true → ∃ header body rest, Consumes x cl header body rest ∧
    (cl.call x q).2.socket = some rest ∧ Carries (cl.tid + 1) cl.unit header
  closes : (cl.call x q).1 = false → (cl.call x q).2.socket = none ∨
    ∃ header body rest, Consumes x cl header body rest ∧
      (cl.call x q).2.socket = some rest ∧ Carries (cl.tid + 1) cl.unit header ∧
        ExceptionFor q body

/-- A frame that is complete by the call is for it, and is an exception or
passes its checks. -/
def AnswersFit (x : Exchange) (q : Request) (cl : ModbusTcp) : Prop :=
  ∀ header body rest, Consumes x cl header body rest →
    Carries (cl.tid + 1) cl.unit header ∧ (q.accepts body = true ∨ ExceptionFor q body)

section Call

variable {x : Exchange} {cl : ModbusTcp} {q : Request} {pdu header body rest : List UInt8}

theorem Consumes.unique {header' body' rest' : List UInt8} (h : Consumes x cl header body rest)
    (h' : Consumes x cl header' body' rest') :
    header' = header ∧ body' = body ∧ rest' = rest := by
  have hbytes := Option.some.inj (h'.pending.symm.trans h.pending)
  obtain ⟨rfl, hafter⟩ := List.append_inj hbytes (h'.header_length.trans h.header_length.symm)
  obtain ⟨rfl, rfl⟩ := List.append_inj hafter (h'.body_length.trans h.body_length.symm)
  exact ⟨rfl, rfl, rfl⟩

theorem transact_of_consumes (h : Consumes x cl header body rest) :
    cl.transact x pdu =
      (if IsException body then none else some body,
        { cl.requested pdu with socket := some rest }) := by
  obtain ⟨unread, hsocket, hbytes⟩ := Option.map_eq_some_iff.mp h.pending
  have hheader : receiveAll 7 (unread ++ x.arrives) = some (header, body ++ rest) :=
    receiveAll_eq_some.mpr ⟨h.header_length, hbytes⟩
  have hbody : receiveAll (bodyLength header) (body ++ rest) = some (body, rest) :=
    receiveAll_eq_some.mpr ⟨h.body_length, rfl⟩
  rw [transact, hsocket]
  dsimp only
  rw [if_neg (not_not_intro h.sends), hheader]
  dsimp only
  rw [if_neg (not_not_intro h.acceptable), hbody]
  dsimp only
  by_cases hexception : IsException body
  · rw [if_pos hexception]
    exact if_pos hexception
  · rw [if_neg hexception]
    exact if_neg hexception

theorem transact_of_not_consumes (h : ∀ header body rest, ¬ Consumes x cl header body rest) :
    (cl.transact x pdu).1 = none ∧ (cl.transact x pdu).2.socket = none := by
  rw [transact]
  cases hsocket : (if cl.socket = none ∧ x.opens then some [] else cl.socket) with
  | none =>
      refine ⟨rfl, ?_⟩
      split_ifs at hsocket
      exact hsocket
  | some unread =>
      dsimp only
      by_cases hsends : x.sends = true
      swap
      · rw [if_pos hsends]
        exact ⟨rfl, rfl⟩
      rw [if_neg (not_not_intro hsends)]
      cases hheader : receiveAll 7 (unread ++ x.arrives) with
      | none => exact ⟨rfl, rfl⟩
      | some p =>
          obtain ⟨header, after⟩ := p
          dsimp only
          by_cases haccept : acceptsLength header = true
          swap
          · rw [if_pos haccept]
            exact ⟨rfl, rfl⟩
          rw [if_neg (not_not_intro haccept)]
          cases hbody : receiveAll (bodyLength header) after with
          | none => exact ⟨rfl, rfl⟩
          | some p =>
              obtain ⟨body, rest⟩ := p
              obtain ⟨hlength, hbytes⟩ := receiveAll_eq_some.mp hheader
              obtain ⟨hbodyLength, rfl⟩ := receiveAll_eq_some.mp hbody
              refine absurd ⟨hsends, ?_, hlength, haccept, hbodyLength⟩ (h header body rest)
              rw [ModbusTcp.pending, hsocket, Option.map_some, hbytes]

/-- An answer that passes the checks has the function code of its request. -/
theorem fc_of_accepts (h : q.accepts body = true) : body.getD 0 0 = q.fc := by
  cases q with
  | readCoils addr qty | readInputRegisters addr qty =>
      simp only [Request.accepts, acceptsRead, Bool.and_eq_true, beq_iff_eq] at h
      exact h.1.2
  | writeSingleCoil addr on | writeSingleRegister addr value =>
      simp only [Request.accepts, acceptsWrite, Bool.and_eq_true, beq_iff_eq] at h
      exact h.2

theorem fc_and_exception (q : Request) : q.fc &&& 0x80 = 0 := by
  cases q <;> simp only [Request.fc] <;> decide

theorem not_isException_of_accepts (h : q.accepts body = true) : ¬ IsException body := by
  rw [IsException, fc_of_accepts h]
  exact not_not_intro (fc_and_exception q)

/-- A call that can take a frame takes it, whatever is in it. -/
theorem call_of_consumes (h : Consumes x cl header body rest) :
    cl.call x q = (q.accepts body, { cl.requested q.pdu with socket := some rest }) := by
  rw [call_eq, transact_of_consumes h]
  by_cases hexception : IsException body
  · have haccept : q.accepts body = false := by
      by_contra haccept
      exact not_isException_of_accepts (by simpa using haccept) hexception
    rw [if_pos hexception, haccept]
    rfl
  · rw [if_neg hexception]
    rfl

/-- A call without a frame fails and leaves no connection. -/
theorem call_of_not_consumes (h : ∀ header body rest, ¬ Consumes x cl header body rest) :
    (cl.call x q).1 = false ∧ (cl.call x q).2.socket = none := by
  obtain ⟨hnone, hsocket⟩ : (cl.transact x q.pdu).1 = none ∧
      (cl.transact x q.pdu).2.socket = none := transact_of_not_consumes h
  rw [call_eq, Prod.map_fst, hnone]
  exact ⟨rfl, hsocket⟩

/-- A call owns its answer exactly if the frame that it takes fits. -/
theorem ownsAnswer_iff : OwnsAnswer x q cl ↔ AnswersFit x q cl := by
  by_cases hframe : ∃ header body rest, Consumes x cl header body rest
  · obtain ⟨header, body, rest, hconsumes⟩ := hframe
    have hcall := call_of_consumes (q := q) hconsumes
    constructor
    · rintro ⟨hown, hcloses⟩ header' body' rest' hconsumes'
      obtain ⟨rfl, rfl, rfl⟩ := hconsumes.unique hconsumes'
      cases haccept : q.accepts body' with
      | true =>
          obtain ⟨_, _, _, htaken, -, hcarries⟩ := hown (by rw [hcall, haccept])
          obtain ⟨rfl, -, -⟩ := hconsumes.unique htaken
          exact ⟨hcarries, .inl rfl⟩
      | false =>
          rcases hcloses (by rw [hcall, haccept]) with hclosed | hexception
          · rw [hcall] at hclosed
            cases hclosed
          · obtain ⟨_, _, _, htaken, -, hcarries, hexception⟩ := hexception
            obtain ⟨rfl, rfl, -⟩ := hconsumes.unique htaken
            exact ⟨hcarries, .inr hexception⟩
    · intro h
      obtain ⟨hcarries, hbody⟩ := h _ _ _ hconsumes
      have hsocket : (cl.call x q).2.socket = some rest := by rw [hcall]
      refine ⟨fun _ => ⟨header, body, rest, hconsumes, hsocket, hcarries⟩, ?_⟩
      intro hfalse
      right
      refine ⟨header, body, rest, hconsumes, hsocket, hcarries, hbody.resolve_left ?_⟩
      rw [hcall] at hfalse
      exact Bool.eq_false_iff.mp hfalse
  · have hnone : ∀ header body rest, ¬ Consumes x cl header body rest :=
      fun header body rest h => hframe ⟨header, body, rest, h⟩
    obtain ⟨hfalse, hclosed⟩ := call_of_not_consumes (q := q) hnone
    constructor
    · exact fun _ header body rest h => absurd h (hnone header body rest)
    · intro _
      exact ⟨fun htrue => absurd (hfalse.symm.trans htrue) nofun, fun _ => .inl hclosed⟩

/-- What a call takes off the connection is a frame for it, where its header is. -/
theorem Consumes.frame (h : Consumes x cl header body rest)
    (hcarries : Carries (cl.tid + 1) cl.unit header) :
    Framed body ∧ cl.pending x = some (frame (cl.tid + 1) cl.unit body ++ rest) := by
  obtain ⟨htid, hprotocol, hunit⟩ := hcarries
  have haccept : acceptsHeader (cl.tid + 1) cl.unit header = true := by
    have hlength := h.acceptable
    rw [acceptsLength, Bool.and_eq_true] at hlength
    rw [acceptsHeader, htid, hprotocol, hunit]
    simp only [beq_self_eq_true, Bool.true_and, Bool.and_eq_true]
    exact hlength
  obtain ⟨n, hmin, hmax, rfl⟩ := (acceptsHeader_iff h.header_length).mp haccept
  have hbody := h.body_length
  rw [bodyLength_mbapHeader hmax] at hbody
  have hn : body.length + 1 = n := by omega
  refine ⟨⟨by omega, by omega⟩, ?_⟩
  rw [Safety.ModbusTcpClient.frame, hn, h.pending, List.append_assoc]

end Call

/-- The connection as the node's model has it. -/
def link (cl : ModbusTcp) : Link := if cl.socket = none then .closed else .live

/-- Every call is a transaction of the node: it returns and leaves the
connection as one of the outcomes does. -/
theorem call_transacted (x : Exchange) (q : Request) (cl : ModbusTcp) :
    ∃ o t, Crevis.transact cl.link o = some t ∧ t.ok = (cl.call x q).1 ∧
      (t.link = .closed ↔ (cl.call x q).2.socket = none) := by
  by_cases hframe : ∃ header body rest, Consumes x cl header body rest
  · obtain ⟨header, body, rest, hconsumes⟩ := hframe
    rw [call_of_consumes hconsumes, link]
    cases q.accepts body with
    | true =>
        refine ⟨.answered [], ⟨true, true, .live⟩, ?_, rfl, by simp⟩
        split_ifs <;> rfl
    | false =>
        refine ⟨.refused true, ⟨true, false, .live⟩, ?_, rfl, by simp⟩
        split_ifs <;> rfl
  · obtain ⟨hfalse, hclosed⟩ := call_of_not_consumes (q := q)
      fun header body rest h => hframe ⟨header, body, rest, h⟩
    refine ⟨.broken true, ⟨true, false, .closed⟩, ?_, hfalse.symm, by simp [hclosed]⟩
    rw [link]
    split_ifs <;> rfl

/-- What a caller does with the client. -/
inductive Use where
  | openSock (opens : Bool)
  | closeSock
  | call (x : Exchange) (q : Request)
  deriving DecidableEq, Repr

def use (cl : ModbusTcp) : Use → ModbusTcp
  | .openSock opens => cl.openSock opens
  | .closeSock => cl.closeSock
  | .call x q => (cl.call x q).2

/-- A call without a connection starts a new log, as opening one does. -/
def noteUse (cl : ModbusTcp) (u : Use) (log : ConnectionLog) : ConnectionLog :=
  match u with
  | .openSock _ | .closeSock => {}
  | .call x _ =>
      if cl.socket = none then ⟨[cl.tid + 1], x.arrives⟩
      else ⟨log.ids ++ [cl.tid + 1], log.received ++ x.arrives⟩

/-- The client with its log. -/
def observedUse : ModbusTcp × ConnectionLog → Use → Option (ModbusTcp × ConnectionLog) :=
  observe (total use) noteUse

/-- The bytes received on an open connection are one whole frame for each request
sent on it, with its transaction id, followed by the unread bytes. -/
def InPhase (w : ModbusTcp × ConnectionLog) : Prop :=
  ∀ unread, w.1.socket = some unread → Phased w.1.unit w.2 unread

/-- A call owns its answer, and no later answer is shifted. -/
def UseOwns (w : ModbusTcp × ConnectionLog) (u : Use) (w' : ModbusTcp × ConnectionLog) : Prop :=
  (∀ x q, u = .call x q → OwnsAnswer x q w.1) ∧ InPhase w'

/-- The frame that a call takes fits. -/
def UseFits (w : ModbusTcp × ConnectionLog) (u : Use) : Prop :=
  ∀ x q, u = .call x q → AnswersFit x q w.1

section Runs

variable {x : Exchange} {q : Request} {cl : ModbusTcp} {log : ConnectionLog}
  {w w' : ModbusTcp × ConnectionLog} {u : Use}

theorem call_open (x : Exchange) (q : Request) (cl : ModbusTcp) {unread : List UInt8}
    (h : (cl.call x q).2.socket = some unread) :
    (cl.call x q).2.unit = cl.unit ∧ ∃ header body, Consumes x cl header body unread := by
  by_cases hframe : ∃ header body rest, Consumes x cl header body rest
  · obtain ⟨header, body, rest, hconsumes⟩ := hframe
    rw [call_of_consumes hconsumes] at h ⊢
    obtain rfl := Option.some.inj h
    exact ⟨rfl, header, body, hconsumes⟩
  · obtain ⟨-, hclosed⟩ := call_of_not_consumes (q := q)
      fun header body rest h => hframe ⟨header, body, rest, h⟩
    cases hclosed.symm.trans h

theorem call_inPhase (hphase : InPhase (cl, log)) (hfits : AnswersFit x q cl) :
    InPhase ((cl.call x q).2, noteUse cl (.call x q) log) := by
  intro unread hopen
  obtain ⟨hunit, header, body, hconsumes⟩ := call_open x q cl hopen
  obtain ⟨hcarries, -⟩ := hfits _ _ _ hconsumes
  obtain ⟨hframed, hpending⟩ := hconsumes.frame hcarries
  obtain ⟨before, hbefore, hbytes⟩ := Option.map_eq_some_iff.mp hpending
  rw [hunit]
  exact phased_extend hphase hbefore hbytes hframed

/-- What is open after `openSock` is new. -/
theorem openSock_inPhase (opens : Bool) (cl : ModbusTcp) : InPhase (cl.openSock opens, {}) := by
  intro unread hopen
  cases opens with
  | true =>
      obtain rfl := Option.some.inj hopen
      exact ⟨[], rfl, nofun, rfl⟩
  | false => cases hopen

theorem use_inPhase (hphase : InPhase w) (hfits : UseFits w u)
    (hstep : observedUse w u = some w') : InPhase w' := by
  obtain ⟨cl, log⟩ := w
  obtain ⟨cl', log'⟩ := w'
  obtain ⟨huse, rfl⟩ := observe_eq_some hstep
  obtain rfl := Option.some.inj huse
  cases u with
  | openSock opens => exact openSock_inPhase opens cl
  | closeSock => exact fun _ hopen => nomatch hopen
  | call x q => exact call_inPhase hphase (hfits x q rfl)

end Runs

/-- Over every sequence of calls: each owns its answer and the answers stay in
phase exactly if every frame that a call takes fits. -/
theorem answers_owned_iff (unit : UInt8) (uses : List Use) :
    Along observedUse UseOwns (⟨unit, none, 0, []⟩, {}) uses ↔
      Along observedUse (fun w u _ => UseFits w u) (⟨unit, none, 0, []⟩, {}) uses := by
  constructor
  · intro h
    have keep : ∀ w u w', True → UseOwns w u w' → observedUse w u = some w' → True :=
      fun _ _ _ _ _ _ => trivial
    refine along_of_invariant keep ?_ trivial h
    intro w u w' _ howns _ x q hu
    exact ownsAnswer_iff.mp (howns.1 x q hu)
  · intro h
    have keep : ∀ w u w', InPhase w → UseFits w u → observedUse w u = some w' → InPhase w' :=
      fun _ _ _ hphase hfits hstep => use_inPhase hphase hfits hstep
    refine along_of_invariant keep ?_ ?_ h
    · intro w u w' hphase hfits hstep
      exact ⟨fun x q hu => ownsAnswer_iff.mpr (hfits x q hu), keep w u w' hphase hfits hstep⟩
    · exact fun unread hopen => nomatch hopen

/-- The answer to the first read of coils. -/
def firstAnswer : List UInt8 := [0, 1, 0, 0, 0, 4, 1, 1, 1, 0x05]

/-- A read whose answer comes twice. -/
def answeredTwice : Use := .call ⟨true, true, firstAnswer ++ firstAnswer⟩ (.readCoils 0x1000 8)

/-- A read while nothing comes. -/
def unanswered : Use := .call ⟨true, true, []⟩ (.readCoils 0x1000 8)

/-- The second read takes the answer of the first. -/
theorem repeated_answer_taken :
    ¬ ∀ unit uses, Along observedUse UseOwns (⟨unit, none, 0, []⟩, {}) uses := by
  intro h
  have howns : UseOwns _ unanswered _ := Along.after_prefix (h 1 ([answeredTwice] ++ [unanswered]))
    rfl rfl
  have hfits := ownsAnswer_iff.mp (howns.1 _ _ rfl)
  obtain ⟨⟨htid, -⟩, -⟩ := hfits (firstAnswer.take 7) (firstAnswer.drop 7) []
    ⟨rfl, by decide, rfl, by decide, by decide⟩
  revert htid
  decide

end PolishingRobot.Crevis.ModbusTcp
