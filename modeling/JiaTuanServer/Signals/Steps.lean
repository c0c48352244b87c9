import JiaTuanServer.Signals.Machine
import JiaTuanServer.Workqueue.Steps

/-!
# What each step of the server and of a handler does

The inversion of the step functions: one constructor for each way in which a step can go, with what
was tested as its hypotheses. A run of `workqueue_shutdown` reads the same for `runServer` and for a
handler.
-/

namespace JiaTuanServer.Signals

open Transition Workqueue

variable {n : ℕ} {J : Type}

/-- The steps of a `workqueue_shutdown` on thread `t`, from `pc` to the last argument. -/
inductive ShutdownOn (q : Workqueue.State n Unit J) (t : Thread n) :
    ShutdownPc n → Workqueue.State n Unit J → ShutdownPc n → Prop where
  | setTerminate (w : Fin n) : ShutdownOn q t (.setTerminate w)
      { q with terminate := Function.update q.terminate w true } (.readNext w)
  | readNext (w : Fin n) (alive : q.freed w = false) :
      ShutdownOn q t (.readNext w) q (.traverse (q.workerLinks.next w))
  | readFreed (w : Fin n) (dead : q.freed w = true) (junk : Option (Fin n)) :
      ShutdownOn q t (.readNext w) q (.traverse junk)
  | lock (unowned : q.jobsMutex = none) :
      ShutdownOn q t .lock { q with jobsMutex := some t.owner } .clearWorkers
  | clearWorkers : ShutdownOn q t .clearWorkers { q with workers := none } .clearJobs
  | clearJobs : ShutdownOn q t .clearJobs { q with waitingJobs := none } .broadcast
  | broadcast : ShutdownOn q t .broadcast (q.wakeAll q.sleepers) .unlock
  | unlock : ShutdownOn q t .unlock { q with jobsMutex := none } .returned

theorem shutdownOn_cases {q u : Workqueue.State n Unit J} {t : Thread n} {junk : Option (Fin n)}
    {pc pc' : ShutdownPc n} (h : shutdownOn q t junk pc = some (u, pc')) :
    ShutdownOn q t pc u pc' := by
  obtain ⟨v, taken, e⟩ := Option.map_eq_some_iff.mp h
  obtain ⟨rfl, rfl⟩ := Prod.mk.inj e
  cases pc with
  | notCalled | returned => cases taken
  | setTerminate w => cases taken; exact .setTerminate w
  | readNext w =>
    cases taken
    by_cases dead : q.freed w = true
    · simpa [dead] using ShutdownOn.readFreed (q := q) (t := t) w dead junk
    · simpa [dead] using ShutdownOn.readNext (q := q) (t := t) w (by simpa using dead)
  | lock =>
    simp only [workqueueShutdown] at taken
    split at taken
    · cases taken; exact .lock ‹_›
    · cases taken
  | clearWorkers => cases taken; exact .clearWorkers
  | clearJobs => cases taken; exact .clearJobs
  | broadcast => cases taken; exact .broadcast
  | unlock => cases taken; exact .unlock

/-- The steps of `sighandler` on thread `t`. -/
inductive HandlerStep (s : State n J) (t : Thread n) (ok : Bool) : State n J → Prop where
  | loopexit (signal : Signal) (below : List (Frame n))
      (top : s.handlers t = ⟨signal, .loopexit⟩ :: below) :
      HandlerStep s t ok { s.setHandlers t (⟨signal, .callShutdown⟩ :: below) with
        exitScheduled := s.exitScheduled || (s.evbaseAccept && ok) }
  | callShutdown (signal : Signal) (below : List (Frame n))
      (top : s.handlers t = ⟨signal, .callShutdown⟩ :: below) :
      HandlerStep s t ok
        (s.setHandlers t (⟨signal, .shutdown (.traverse s.queue.workers)⟩ :: below))
  | shutdown (signal : Signal) (below : List (Frame n)) (pc pc' : ShutdownPc n)
      (q : Workqueue.State n Unit J) (top : s.handlers t = ⟨signal, .shutdown pc⟩ :: below)
      (step : ShutdownOn s.queue t pc q pc') :
      HandlerStep s t ok { s.setHandlers t (⟨signal, .shutdown pc'⟩ :: below) with queue := q }
  | done (signal : Signal) (below : List (Frame n))
      (top : s.handlers t = ⟨signal, .shutdown .returned⟩ :: below) :
      HandlerStep s t ok (s.setHandlers t below)

theorem sighandler_cases {s u : State n J} {t : Thread n} {ok : Bool} {junk : Option (Fin n)}
    (h : sighandler s t ok junk = some u) : HandlerStep s t ok u := by
  unfold sighandler at h
  split at h
  · cases h
  · rename_i frame below top
    obtain ⟨signal, pc⟩ := frame
    cases pc with
    | loopexit => cases h; exact .loopexit signal below top
    | callShutdown => cases h; exact .callShutdown signal below top
    | shutdown pc =>
      by_cases returned : pc = .returned
      · subst returned
        cases h
        exact .done signal below top
      · obtain ⟨⟨q, pc'⟩, taken, rfl⟩ :
            ∃ x, shutdownOn s.queue t junk pc = some x ∧
              { s.setHandlers t (⟨signal, .shutdown x.2⟩ :: below) with queue := x.1 } = u := by
          cases pc <;> simp_all
        exact .shutdown signal below pc pc' q top (shutdownOn_cases taken)

/-- The steps of `runServer` outside the queue's functions, and those of its own call of
`workqueue_shutdown`. -/
inductive ServerStep (s : State n J) : State n J → Prop where
  | listen (pc : ServerPc n) (at_listen : s.server = .listen)
      (next : pc = .eventBaseNew ∨ pc = .exited) : ServerStep s { s with server := pc }
  | eventBaseNew (ok : Bool) (at_new : s.server = .eventBaseNew) :
      ServerStep s { s with evbaseAccept := ok, server := .testBase }
  | noBase (at_test : s.server = .testBase) (null : s.evbaseAccept = false) :
      ServerStep s { s with server := .returned }
  | haveBase (at_test : s.server = .testBase) (base : s.evbaseAccept = true) :
      ServerStep s { s with server := .memset }
  | memset (at_memset : s.server = .memset) :
      ServerStep s { s with queue := clear s.queue, server := .workqueueInit }
  | ready (at_init : s.server = .workqueueInit) (done : s.queue.init = .returned 0) :
      ServerStep s { s with server := .eventAdd }
  | failed (status : ℕ) (at_init : s.server = .workqueueInit)
      (done : s.queue.init = .returned (status + 1)) :
      ServerStep s { s with server := .workqueueShutdown (.traverse s.queue.workers) }
  | shutdown (pc pc' : ShutdownPc n) (q : Workqueue.State n Unit J)
      (at_shutdown : s.server = .workqueueShutdown pc)
      (step : ShutdownOn s.queue .accept pc q pc') :
      ServerStep s { s with queue := q, server := .workqueueShutdown pc' }
  | gaveUp (at_shutdown : s.server = .workqueueShutdown .returned) :
      ServerStep s { s with server := .returned }
  | eventAdd (at_add : s.server = .eventAdd) : ServerStep s { s with server := .dispatch }
  | leave (at_dispatch : s.server = .dispatch) (idle : s.queue.caller () = .idle) :
      ServerStep s { s with server := .eventBaseFree }
  | eventBaseFree (at_free : s.server = .eventBaseFree) :
      ServerStep s { s with server := .clearBase }
  | clearBase (at_clear : s.server = .clearBase) :
      ServerStep s { s with evbaseAccept := false, server := .returned }
  | exit (at_end : s.server = .returned) : ServerStep s { s with server := .exited }

variable [DecidableEq J]

theorem runServer_cases {s u : State n J} {ok : Bool} {junk : Option (Fin n)}
    (h : runServer s ok junk = some u) : ServerStep s u := by
  unfold runServer at h
  cases at_pc : s.server with
  | listen =>
    simp only [at_pc] at h
    cases h
    exact .listen _ at_pc (by cases ok <;> simp)
  | eventBaseNew =>
    simp only [at_pc] at h
    cases h
    exact .eventBaseNew ok at_pc
  | testBase =>
    simp only [at_pc] at h
    by_cases base : s.evbaseAccept = true
    · rw [if_pos base] at h
      cases h
      exact .haveBase at_pc base
    · rw [if_neg base] at h
      cases h
      exact .noBase at_pc (by simpa using base)
  | memset =>
    simp only [at_pc] at h
    cases h
    exact .memset at_pc
  | workqueueInit =>
    simp only [at_pc] at h
    split at h
    · cases h; exact .ready at_pc ‹_›
    · rename_i status nonzero done
      cases h
      obtain ⟨status, rfl⟩ := Nat.exists_eq_succ_of_ne_zero nonzero
      exact .failed status at_pc done
    · cases h
  | workqueueShutdown pc =>
    by_cases returned : pc = .returned
    · subst returned
      simp only [at_pc] at h
      cases h
      exact .gaveUp at_pc
    · obtain ⟨⟨q, pc'⟩, taken, rfl⟩ : ∃ x, shutdownOn s.queue .accept junk pc = some x ∧
          { s with queue := x.1, server := .workqueueShutdown x.2 } = u := by
        cases pc <;> simp_all
      exact .shutdown pc pc' q at_pc (shutdownOn_cases taken)
  | eventAdd => simp only [at_pc] at h; cases h; exact .eventAdd at_pc
  | dispatch =>
    simp only [at_pc] at h
    split at h
    · rename_i out
      cases h
      exact .leave at_pc out.1
    · cases h
  | eventBaseFree => simp only [at_pc] at h; cases h; exact .eventBaseFree at_pc
  | clearBase => simp only [at_pc] at h; cases h; exact .clearBase at_pc
  | returned => simp only [at_pc] at h; cases h; exact .exit at_pc
  | exited => simp only [at_pc] at h; cases h

/-- The steps of the whole program. -/
inductive Step (s : State n J) : Action n J → State n J → Prop where
  | queue {a : Workqueue.Action n Unit J} {q : Workqueue.State n Unit J} (runs : s.Runs a)
      (h : Workqueue.Step s.queue a q) : Step s (.queue a) { s with queue := q }
  | server {ok : Bool} {junk : Option (Fin n)} {u : State n J} (calm : s.handlers .accept = [])
      (h : ServerStep s u) : Step s (.server ok junk) u
  | deliver {t : Thread n} {signal : Signal} (alive : s.Alive t)
      (unblocked : signal ∉ (s.handlers t).map Frame.signal) :
      Step s (.deliver t signal) (s.setHandlers t (⟨signal, .loopexit⟩ :: s.handlers t))
  | handler {t : Thread n} {ok : Bool} {junk : Option (Fin n)} {u : State n J}
      (h : HandlerStep s t ok u) : Step s (.handler t ok junk) u

theorem step_cases {s u : State n J} {a : Action n J} (h : step s a = some u) : Step s a u := by
  unfold step at h
  split at h
  · cases h
  cases a with
  | queue a =>
    simp only at h
    split at h
    · obtain ⟨q, taken, rfl⟩ := Option.map_eq_some_iff.mp h
      exact .queue ‹_› (Workqueue.step_cases taken)
    · cases h
  | server ok junk =>
    simp only at h
    split at h
    · exact .server ‹_› (runServer_cases h)
    · cases h
  | deliver t signal =>
    simp only at h
    split at h
    · rename_i may
      cases h
      exact .deliver may.1 may.2
    · cases h
  | handler t ok junk => exact .handler (sighandler_cases h)

end JiaTuanServer.Signals
