import JiaTuanServer.Request.Credentials
import JiaTuanServer.Request.Failures
import Mathlib.Data.List.Forall2

/-!
# Failures of the database

The server handles a sequence of requests on one database, while calls of libmysqlclient fail in
any pattern. A statement that fails is reported to the client that sent it. A connection that fails
is reported to nobody: the constructor of `CDBManager` and `initDB` call `exit`, and with the
process all connections end.

The replies tell what the library accepts (`serveAll_run`), so that a request can feel the failure
of another only through the database (`contained_iff`).
-/

namespace JiaTuanServer.Request

open LocalTriple

/-- A chunk of a connection, whether `evbuffer_add` takes the reply to it, and the calls of the
library that fail while it is handled. -/
structure Arrival where
  connection : ℕ
  input : Bytes
  added : Bool
  failures : Failures
  deriving DecidableEq, Repr

/-- A request that has been handled: the state in which it found the library, and what the callback
added to the output buffer of its connection. -/
structure Handled (σ : Type) where
  connection : ℕ
  found : σ
  replies : List Bytes

/-- A well-formed register or login request. -/
def Arrival.Asks (jsoncpp : Jsoncpp) (a : Arrival) (operation : Operation) : Prop :=
  operation.IsCall ∧ ∃ sdata, receive a.input = .ok sdata ∧
    meaning (jsoncpp.parse sdata) = .operation operation

/-- A reply with a non-zero error code. -/
def IsError (jsoncpp : Jsoncpp) (reply : Bytes) : Prop :=
  ∃ (item : Value) (code : ℤ), reply = item.write jsoncpp.doubleToString ∧
    item.member (text "error_code") = .int code ∧ code ≠ 0

/-- The same requests, while some of the failures do not happen. -/
def Repaired : List Arrival → List Arrival → Prop :=
  List.Forall₂ fun a a' => a'.failures.Within a.failures ∧ a' = { a with failures := a'.failures }

section Sequence

variable {σ : Type} (works fails : Mysql σ) (jsoncpp : Jsoncpp)

/-- The callback for a request, and the state in which it leaves the library. -/
def Arrival.handle (a : Arrival) (s : σ) : Except Fault (Handled σ × σ) := do
  let (_, w) ← (bufferedOnRead (works.failing fails a.failures) jsoncpp a.added a.input).run
    ⟨s, [], []⟩
  pure (⟨a.connection, s, w.replies⟩, w.lib)

/-- The requests one after the other. -/
def serveAll : List Arrival → σ → Except Fault (List (Handled σ))
  | [], _ => pure []
  | a :: rest, s => do
    let (handled, s) ← a.handle works fails jsoncpp s
    let others ← serveAll rest s
    pure (handled :: others)

/-- A call fails for a request that finds the library in this state: one on the way to a
connection, or the statement. -/
def Arrival.Fails (a : Arrival) (s : σ) : Prop :=
  ∀ connected s', (works.failing fails a.failures).connect s = some (connected, s') →
    ∃ operation, a.Asks jsoncpp operation ∧
      ((works.failing fails a.failures).answer
        (.query connected (cString operation.sql)) s').1 ≠ 0

/-- Every request is answered with one reply on its connection, an error if a call fails for it.
If some of the failures do not happen, the requests without these get the same replies. -/
def Contained (arrivals : List Arrival) (s : σ) : Prop :=
  ∃ out, serveAll works fails jsoncpp arrivals s = .ok out ∧
    List.Forall₂ (fun a h => h.connection = a.connection ∧ ∃ reply, h.replies = [reply] ∧
      (a.Fails works fails jsoncpp h.found → IsError jsoncpp reply)) arrivals out ∧
    ∀ arrivals', Repaired arrivals arrivals' →
      ∃ out', serveAll works fails jsoncpp arrivals' s = .ok out' ∧
        ∀ i : ℕ, arrivals'[i]? = arrivals[i]? →
          out'[i]?.map Handled.replies = out[i]?.map Handled.replies

/-- Which operations of a sequence the library accepts, up to the first without a connection. -/
def verdicts : List (Failures × Operation) → σ → List Bool
  | [], _ => []
  | (f, operation) :: rest, s =>
    match (works.failing fails f).transact operation s with
    | none => []
    | some (accepted, s) => accepted :: verdicts rest s

/-- What the library accepts of the operations of these requests. -/
def accepted (arrivals : List Arrival) (operations : List Operation) (s : σ) : List Bool :=
  verdicts works fails ((arrivals.map Arrival.failures).zip operations) s

/-- The replies that tell these verdicts, one to each operation. -/
def replyTexts (operations : List Operation) (flags : List Bool) : List (List Bytes) :=
  List.zipWith (fun operation flag => [(operation.verdict flag).write jsoncpp.doubleToString])
    operations flags

/-- Whether the failures happen decides nothing for the requests without them. -/
def Indifferent (arrivals : List Arrival) (operations : List Operation) (s : σ) : Prop :=
  ∀ arrivals', Repaired arrivals arrivals' → ∀ i : ℕ, arrivals'[i]? = arrivals[i]? →
    (accepted works fails arrivals' operations s)[i]? =
      (accepted works fails arrivals operations s)[i]?

/-- The request gets a connection and its reply is added. -/
def Arrival.Reaches (a : Arrival) : Prop := a.added = true ∧ a.failures.Connected

variable {works fails jsoncpp} {a a' : Arrival} {arrivals arrivals' : List Arrival}
  {operation : Operation} {operations : List Operation} {s s' : σ} {f : Failures}

theorem Arrival.Asks.unique {operation' : Operation} (asks : a.Asks jsoncpp operation)
    (asks' : a.Asks jsoncpp operation') : operation = operation' := by
  obtain ⟨-, sdata, received, means⟩ := asks
  obtain ⟨-, sdata', received', means'⟩ := asks'
  cases received.symm.trans received'
  exact Meaning.operation.inj (means.symm.trans means')

/-- A request that gets no connection takes the process down. -/
theorem handle_exit (asks : a.Asks jsoncpp operation)
    (closed : (works.failing fails a.failures).connect s = none) :
    a.handle works fails jsoncpp s = .error (.exit 1) := by
  obtain ⟨-, sdata, received, means⟩ := asks
  have exits : (serve (works.failing fails a.failures) (.operation operation)).run ⟨s, [], []⟩ =
      .error (.exit 1) := serve_none closed
  unfold Arrival.handle
  rw [bufferedOnRead_eq received, means, run_bind_of_error exits]
  rfl

/-- A request that gets one is answered with the library's verdict. -/
theorem handle_answers {verdict : Bool} (asks : a.Asks jsoncpp operation)
    (transacted : (works.failing fails a.failures).transact operation s = some (verdict, s')) :
    a.handle works fails jsoncpp s = .ok (⟨a.connection, s,
      queued a.added ((operation.verdict verdict).write jsoncpp.doubleToString)⟩, s') := by
  obtain ⟨isCall, sdata, received, means⟩ := asks
  obtain ⟨w, served, rfl⟩ := serve_some (w := ⟨s, [], []⟩) isCall transacted
  have silent := serve_silent _ _ _ _ served
  unfold Arrival.handle
  rw [bufferedOnRead_eq received, means, run_bind_of_ok served]
  change Except.ok (Handled.mk a.connection s (w.replies ++ _), w.lib) = _
  rw [silent]
  rfl

theorem transact_works (connects : works.Connects) (fails : Mysql σ) (kept : f.Connected)
    (operation : Operation) (s : σ) :
    ∃ verdict s', (works.failing fails f).transact operation s = some (verdict, s') := by
  obtain ⟨connected, s', opened⟩ := connect_works connects kept s
  exact ⟨_, _, Option.map_eq_some_iff.mpr ⟨_, opened, rfl⟩⟩

/-- Where a call fails the verdict is no. -/
theorem verdict_of_fails {verdict : Bool} (asks : a.Asks jsoncpp operation)
    (failed : a.Fails works fails jsoncpp s)
    (transacted : (works.failing fails a.failures).transact operation s = some (verdict, s')) :
    verdict = false := by
  obtain ⟨⟨connected, s₁⟩, opened, judged⟩ := Option.map_eq_some_iff.mp transacted
  obtain ⟨operation', asks', refused⟩ := failed connected s₁ opened
  cases judged
  rw [asks'.unique asks] at refused
  exact judge_refused refused

theorem isError_verdict (isCall : operation.IsCall) :
    IsError jsoncpp ((operation.verdict false).write jsoncpp.doubleToString) := by
  cases operation with
  | register l p => exact ⟨_, -111, rfl, Value.member_head, by omega⟩
  | login l p => exact ⟨_, -121, rfl, Value.member_head, by omega⟩
  | _ => exact absurd isCall id

/-- The reply tells the verdict: behind `"error_code":` there is a zero or a minus sign. -/
theorem verdict_injective (isCall : operation.IsCall) {b b' : Bool}
    (same : (operation.verdict b).write jsoncpp.doubleToString =
      (operation.verdict b').write jsoncpp.doubleToString) : b = b' := by
  have tells (b : Bool) : ((operation.verdict b).write jsoncpp.doubleToString)[14]? =
      some (if b then 0x30 else 0x2D) := by
    cases operation with
    | register l p => cases b <;> rfl
    | login l p => cases b <;> rfl
    | _ => exact absurd isCall id
  have bytes : (if b then 0x30 else 0x2D : UInt8) = if b' then 0x30 else 0x2D :=
    Option.some.inj ((tells b).symm.trans ((congrArg (·[14]?) same).trans (tells b')))
  cases b <;> cases b' <;> first | rfl | exact absurd bytes (by decide)

theorem replyTexts_getElem?_iff {flags flags' : List Bool}
    (areCalls : ∀ operation ∈ operations, operation.IsCall)
    (count : flags.length = operations.length) (count' : flags'.length = operations.length)
    (i : ℕ) :
    (replyTexts jsoncpp operations flags)[i]? = (replyTexts jsoncpp operations flags')[i]? ↔
      flags[i]? = flags'[i]? := by
  unfold replyTexts
  by_cases inside : i < operations.length
  · have operation := List.getElem?_eq_getElem inside
    have flag := List.getElem?_eq_getElem (count.symm ▸ inside : i < flags.length)
    have flag' := List.getElem?_eq_getElem (count'.symm ▸ inside : i < flags'.length)
    have isCall := areCalls _ (List.getElem_mem inside)
    rw [List.getElem?_zipWith, List.getElem?_zipWith, operation, flag, flag', Option.some.injEq,
      Option.some.injEq]
    exact ⟨fun same => verdict_injective isCall (List.cons.inj same).1,
      fun same => congrArg (fun b => [(Operation.verdict b _).write jsoncpp.doubleToString]) same⟩
  · have outside (flags : List Bool) : (List.zipWith (fun operation flag =>
        [(Operation.verdict flag operation).write jsoncpp.doubleToString])
          operations flags)[i]? = none :=
      List.getElem?_eq_none (by rw [List.length_zipWith]; omega)
    rw [outside, outside, List.getElem?_eq_none (by omega), List.getElem?_eq_none (by omega)]
    exact iff_of_true rfl rfl

/-- Requests that all get a connection are all answered, each with the verdict on its operation. -/
theorem serveAll_run (connects : works.Connects) (fails : Mysql σ)
    (requests : List.Forall₂ (Arrival.Asks jsoncpp) arrivals operations)
    (reaches : ∀ a ∈ arrivals, a.Reaches) (s : σ) :
    ∃ out, serveAll works fails jsoncpp arrivals s = .ok out ∧
      List.Forall₂ (fun a h => h.connection = a.connection ∧ ∃ reply, h.replies = [reply] ∧
        (a.Fails works fails jsoncpp h.found → IsError jsoncpp reply)) arrivals out ∧
      (accepted works fails arrivals operations s).length = operations.length ∧
      out.map Handled.replies =
        replyTexts jsoncpp operations (accepted works fails arrivals operations s) := by
  induction requests generalizing s with
  | nil => exact ⟨[], rfl, .nil, rfl, rfl⟩
  | @cons a operation rest operations asks _ ih =>
    obtain ⟨added, kept⟩ := reaches a List.mem_cons_self
    obtain ⟨verdict, s', transacted⟩ := transact_works connects fails kept operation s
    obtain ⟨out, served, all, count, replies⟩ :=
      ih (fun a mem => reaches a (List.mem_cons_of_mem _ mem)) s'
    have handled := handle_answers asks transacted
    rw [added] at handled
    have flags : accepted works fails (a :: rest) (operation :: operations) s =
        verdict :: accepted works fails rest operations s' := by
      rw [accepted, List.map_cons, List.zip_cons_cons, verdicts, transacted]
      rfl
    let reply := (operation.verdict verdict).write jsoncpp.doubleToString
    refine ⟨⟨a.connection, s, [reply]⟩ :: out, ?_, .cons ⟨rfl, reply, rfl, fun failed => ?_⟩ all,
      ?_, ?_⟩
    · rw [serveAll, handled]
      change (serveAll works fails jsoncpp rest s' >>= _) = _
      rw [served]
      rfl
    · have refused := verdict_of_fails asks failed transacted
      subst refused
      exact isError_verdict asks.1
    · rw [flags, List.length_cons, List.length_cons, count]
    · rw [flags, List.map_cons, replies]
      rfl

/-- If all requests are answered, each got its connection and its reply was added. -/
theorem reaches_of_answered (down : fails.Down)
    (requests : List.Forall₂ (Arrival.Asks jsoncpp) arrivals operations) {out : List (Handled σ)}
    (served : serveAll works fails jsoncpp arrivals s = .ok out)
    (answered : List.Forall₂ (fun _ h => ∃ reply, h.replies = [reply]) arrivals out) :
    ∀ a ∈ arrivals, a.Reaches := by
  induction requests generalizing s out with
  | nil => exact fun a mem => absurd mem List.not_mem_nil
  | @cons a operation rest operations asks _ ih =>
    rw [serveAll] at served
    cases transacted : (works.failing fails a.failures).transact operation s with
    | none =>
      rw [handle_exit asks (Option.map_eq_none_iff.mp transacted)] at served
      cases served
    | some result =>
      obtain ⟨verdict, s'⟩ := result
      rw [handle_answers asks transacted] at served
      change (serveAll works fails jsoncpp rest s' >>= _) = _ at served
      cases others : serveAll works fails jsoncpp rest s' with
      | error fault =>
        rw [others] at served
        cases served
      | ok out' =>
        rw [others] at served
        cases served
        obtain ⟨reply, one⟩ := (List.forall₂_cons.mp answered).1
        have later := ih others (List.forall₂_cons.mp answered).2
        have reaches : a.Reaches := by
          constructor
          · cases added : a.added with
            | true => rfl
            | false =>
              simp only [added] at one
              cases one
          · by_contra hit
            rw [Mysql.transact, connect_down down hit s] at transacted
            cases transacted
        intro a' mem
        rcases List.mem_cons.mp mem with rfl | mem
        · exact reaches
        · exact later a' mem

theorem isCall_of_asks (requests : List.Forall₂ (Arrival.Asks jsoncpp) arrivals operations) :
    ∀ operation ∈ operations, operation.IsCall := by
  induction requests with
  | nil => exact fun operation mem => absurd mem List.not_mem_nil
  | cons asks _ ih => exact List.forall_mem_cons.mpr ⟨asks.1, ih⟩

theorem Repaired.asks (repaired : Repaired arrivals arrivals')
    (requests : List.Forall₂ (Arrival.Asks jsoncpp) arrivals operations) :
    List.Forall₂ (Arrival.Asks jsoncpp) arrivals' operations := by
  induction repaired generalizing operations with
  | nil => exact requests
  | cons head _ ih =>
    cases requests with
    | cons asks others =>
      have input := congrArg Arrival.input head.2
      obtain ⟨isCall, sdata, received, means⟩ := asks
      exact .cons ⟨isCall, sdata, input ▸ received, means⟩ (ih others)

theorem Repaired.reaches (repaired : Repaired arrivals arrivals')
    (reaches : ∀ a ∈ arrivals, a.Reaches) : ∀ a ∈ arrivals', a.Reaches := by
  induction repaired with
  | nil => exact reaches
  | @cons a a' _ _ head _ ih =>
    intro b mem
    rcases List.mem_cons.mp mem with rfl | mem
    · obtain ⟨added, kept⟩ := reaches a List.mem_cons_self
      exact ⟨(congrArg Arrival.added head.2).trans added, kept.of_within head.1⟩
    · exact ih (fun a mem => reaches a (List.mem_cons_of_mem _ mem)) b mem

end Sequence

/-- With a library whose connections come about unless they fail: failures stay with the requests
that meet them if and only if every request gets its connection and the memory for its reply, and
no request is accepted or refused because the statement of another failed. -/
theorem contained_iff {σ : Type} {works fails : Mysql σ} (connects : works.Connects)
    (down : fails.Down) {jsoncpp : Jsoncpp} {arrivals : List Arrival} {operations : List Operation}
    (requests : List.Forall₂ (Arrival.Asks jsoncpp) arrivals operations) (s : σ) :
    Contained works fails jsoncpp arrivals s ↔
      (∀ a ∈ arrivals, a.Reaches) ∧ Indifferent works fails arrivals operations s := by
  have replies_iff {arrivals' : List Arrival} {out out' : List (Handled σ)}
      (count : (accepted works fails arrivals operations s).length = operations.length)
      (count' : (accepted works fails arrivals' operations s).length = operations.length)
      (replies : out.map Handled.replies =
        replyTexts jsoncpp operations (accepted works fails arrivals operations s))
      (replies' : out'.map Handled.replies =
        replyTexts jsoncpp operations (accepted works fails arrivals' operations s)) (i : ℕ) :
      out'[i]?.map Handled.replies = out[i]?.map Handled.replies ↔
        (accepted works fails arrivals' operations s)[i]? =
          (accepted works fails arrivals operations s)[i]? := by
    rw [← List.getElem?_map, ← List.getElem?_map, replies, replies']
    exact replyTexts_getElem?_iff (isCall_of_asks requests) count' count i
  constructor
  · rintro ⟨out, served, all, others⟩
    have reaches := reaches_of_answered down requests served
      (all.imp fun _ _ answered => answered.2.imp fun _ reply => reply.1)
    obtain ⟨_, served₁, -, count, replies⟩ :=
      serveAll_run connects fails requests reaches s
    cases served.symm.trans served₁
    refine ⟨reaches, fun arrivals' repaired i same => ?_⟩
    obtain ⟨out', served', alike⟩ := others arrivals' repaired
    obtain ⟨_, served₁', -, count', replies'⟩ :=
      serveAll_run connects fails (repaired.asks requests) (repaired.reaches reaches) s
    cases served'.symm.trans served₁'
    exact (replies_iff count count' replies replies' i).mp (alike i same)
  · rintro ⟨reaches, indifferent⟩
    obtain ⟨out, served, all, count, replies⟩ :=
      serveAll_run connects fails requests reaches s
    refine ⟨out, served, all, fun arrivals' repaired => ?_⟩
    obtain ⟨out', served', -, count', replies'⟩ :=
      serveAll_run connects fails (repaired.asks requests) (repaired.reaches reaches) s
    exact ⟨out', served', fun i same =>
      (replies_iff count count' replies replies' i).mpr (indifferent arrivals' repaired i same)⟩

/-- Libmysqlclient when the server cannot be reached. -/
def outage : Mysql Table where
  answer
    | .init, t => (none, t)
    | .realConnect _ _ _ _ _, t => (none, t)
    | .query _ _, t => (1, t)
    | .fieldCount _, t => (0, t)
    | .close _, t => ((), t)

theorem outage_down : outage.Down where
  init _ := rfl
  realConnect _ _ _ _ _ _ := rfl
  query _ _ _ := Int.one_ne_zero

theorem tableServer_connects : tableServer.Connects where
  init _ := ⟨0, rfl⟩
  realConnect _ _ _ _ _ _ := ⟨0, rfl⟩

/-- A login of the user 1 with the password 2. -/
def loginText : Bytes :=
  text "\x7b\"FunctionName\":\"login\",\"User_login\":\"1\",\"User_pass\":\"2\"\x7d"

/-- The table with this user. -/
def oneUser : Table := ⟨[(text "1", text "2")], false, 0⟩

section Logins

open Json

theorem loginText_meaning :
    meaning (withoutReals.parse loginText) = .operation (.login (text "1") (text "2")) := by
  decide +kernel

theorem loginText_asks (connection : ℕ) (added : Bool) (failures : Failures) :
    Arrival.Asks withoutReals ⟨connection, loginText, added, failures⟩
      (.login (text "1") (text "2")) := by
  have received : receive loginText = .ok loginText := by decide +kernel
  exact ⟨trivial, loginText, received, loginText_meaning⟩

/-- The logins of two clients; calls may fail for the first. -/
def logins (failures : Failures) : List Arrival :=
  [⟨0, loginText, true, failures⟩, ⟨1, loginText, true, ⟨false, false, false⟩⟩]

theorem logins_ask (failures : Failures) :
    List.Forall₂ (Arrival.Asks withoutReals) (logins failures)
      [.login (text "1") (text "2"), .login (text "1") (text "2")] :=
  .cons (loginText_asks _ _ _) (.cons (loginText_asks _ _ _) .nil)

theorem repaired_logins {failures : Failures} {arrivals' : List Arrival}
    (repaired : Repaired (logins failures) arrivals') :
    ∃ failures', failures'.Within failures ∧ arrivals' = logins failures' := by
  obtain ⟨a₀, rest, ⟨within₀, same₀⟩, tail, rfl⟩ := List.forall₂_cons_left_iff.mp repaired
  obtain ⟨a₁, rest', ⟨within₁, same₁⟩, tail', rfl⟩ := List.forall₂_cons_left_iff.mp tail
  obtain rfl := List.forall₂_nil_left_iff.mp tail'
  have never : a₁.failures = ⟨false, false, false⟩ := by
    cases failures₁ : a₁.failures with
    | mk init realConnect query => simpa [failures₁, Failures.Within] using within₁
  rw [never] at same₁
  exact ⟨a₀.failures, within₀, by rw [same₀, same₁, logins]⟩

/-- A login whose statement fails, and one of another client. -/
theorem contained_refused :
    Contained tableServer outage withoutReals (logins ⟨false, false, true⟩) oneUser := by
  refine (contained_iff tableServer_connects outage_down (logins_ask _) oneUser).mpr
    ⟨fun a mem => ?_, fun arrivals' repaired i same => ?_⟩
  · rcases List.mem_pair.mp mem with rfl | rfl <;> exact ⟨rfl, rfl, rfl⟩
  · obtain ⟨⟨init, realConnect, query⟩, within, rfl⟩ := repaired_logins repaired
    obtain ⟨rfl, rfl⟩ : init = false ∧ realConnect = false := by
      simpa [Failures.Within] using within
    have flags (query : Bool) : accepted tableServer outage (logins ⟨false, false, query⟩)
        [.login (text "1") (text "2"), .login (text "1") (text "2")] oneUser =
          [!query, true] := by
      cases query <;> decide +kernel
    rw [flags, flags]
    cases i with
    | zero =>
      obtain rfl : query = true := by simpa [logins] using same
      rfl
    | succ i => rfl

/-- One request that gets no connection ends the process before the next request. -/
theorem unreachable_not_contained :
    (∃ operations, List.Forall₂ (Arrival.Asks withoutReals) (logins ⟨false, true, false⟩)
        operations) ∧
      serveAll tableServer outage withoutReals (logins ⟨false, true, false⟩) oneUser =
        .error (.exit 1) ∧
      ¬ Contained tableServer outage withoutReals (logins ⟨false, true, false⟩) oneUser := by
  have exits : serveAll tableServer outage withoutReals (logins ⟨false, true, false⟩) oneUser =
      .error (.exit 1) := by
    rw [logins, serveAll, handle_exit (loginText_asks _ _ _) rfl]
    rfl
  refine ⟨⟨_, logins_ask _⟩, exits, ?_⟩
  rintro ⟨out, served, -⟩
  cases exits.symm.trans served

end Logins

end JiaTuanServer.Request
