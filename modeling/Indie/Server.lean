/-
Indie/Server.lean

The accept loop of `server/src/Main.cpp`.

The constructor of `Server` waits for a signal, sets the listener up, starts an
accept and hands control to `_ios.run()`, which calls the handler of one
operation after the other as they complete.  Which operation completes next, and
with which error, is up to the clients and the system: a run of the server is a
list of completions.  Of the `io_service` it is assumed that it calls a handler
once for each operation that was started and has completed (`Pending`), and none
after `stop()` (`step`).  Nothing is assumed of the errors, but where a result says
so that the system refuses clients on a listener that does not listen
(`RefusesClients`).

`HandleAccept` starts the next accept whatever the error, so there is one
pending at any time, and the signal is the only way out.  Every client accepted
without an error is read once (`accept_loop`).  The result of `SetupListener` is
not looked at: where it failed, the server serves nobody and goes on failing
(`listener_unchecked`).
-/
import Indie.Library.Run
import Indie.Logger

namespace Indie

/-- `boost::system::error_code` other than success. -/
inductive ErrorCode
  | eof
  | other (message : Str)
  deriving DecidableEq

/-- An operation that has completed: the signal wait, the accept for a session,
or the read of a session. -/
inductive Completion
  | signal
  | accept (session : ℕ) (error : Option ErrorCode)
  | read (session : ℕ) (error : Option ErrorCode)
  deriving DecidableEq

/-- Whether the calls of `SetupListener` succeed. -/
structure ListenerCalls where
  open_ : Bool
  setOption : Bool
  bind : Bool
  listen : Bool

/-- A `Server`, the operations it waits for, and what its loggers were given.  A
session is its number in the order of construction. -/
structure Server where
  listening : Bool
  waiting : Bool
  sessions : ℕ
  accepting : List ℕ
  reading : List ℕ
  stopped : Bool
  log : List (LoggerLevel × Str)

namespace Server

/-- `_log.Info(msg)` and `_log.Critical(msg)`. -/
def say (s : Server) (level : LoggerLevel) (msg : Str) : Server :=
  { s with log := s.log ++ [(level, msg)] }

/-- `Session::Start()`. -/
def start (s : Server) (session : ℕ) : Server := { s with reading := s.reading ++ [session] }

/-- `Session::HandleRead(error, bytes_transferred)`. -/
def handleRead (s : Server) (error : Option ErrorCode) : Server :=
  match error with
  | some (.other message) => s.say .critical message
  | some .eof | none => s.say .info "New msg".toList

/-- `StartAccept()`. -/
def startAccept (s : Server) : Server :=
  { s with sessions := s.sessions + 1, accepting := s.accepting ++ [s.sessions] }

/-- `HandleAccept(session, error)`. -/
def handleAccept (s : Server) (session : ℕ) (error : Option ErrorCode) : Server :=
  let s := if error.isNone then (s.say .info "New client.".toList).start session else s
  s.startAccept

/-- The handler of the signals. -/
def handleSignal (s : Server) : Server :=
  { s.say .info "Stopping server...".toList with stopped := true }.say .info
    "Server stopped gracefully.".toList

/-- `SetupListener()`: it is `noexcept`, and `set_option` throws when it fails. -/
def setupListener (s : Server) (calls : ListenerCalls) : Option (Server × Bool) :=
  if !calls.open_ then some (s, false)
  else if !calls.setOption then none
  else if !calls.bind then some (s, false)
  else if !calls.listen then some (s, false)
  else some ({ s with listening := true }, true)

/-- The constructor, up to `_ios.run()`. -/
def init (calls : ListenerCalls) : Option Server := do
  let s : Server := ⟨false, true, 0, [], [], false, []⟩
  let (s, _) ← s.setupListener calls
  return s.startAccept

/-! ### The `io_service` -/

/-- The operation has been started and has not completed. -/
def Pending (s : Server) : Completion → Prop
  | .signal => s.waiting = true
  | .accept session _ => session ∈ s.accepting
  | .read session _ => session ∈ s.reading

instance (s : Server) (c : Completion) : Decidable (s.Pending c) :=
  match c with
  | .signal => inferInstanceAs (Decidable (s.waiting = true))
  | .accept session _ => inferInstanceAs (Decidable (session ∈ s.accepting))
  | .read session _ => inferInstanceAs (Decidable (session ∈ s.reading))

/-- The operation completes, and its handler is called. -/
def handle (s : Server) : Completion → Server
  | .signal => { s with waiting := false }.handleSignal
  | .accept session error =>
    { s with accepting := s.accepting.erase session }.handleAccept session error
  | .read session error => { s with reading := s.reading.erase session }.handleRead error

/-- One round of `_ios.run()`: an operation that is pending completes, unless `stop()`
was called. -/
def step (s : Server) (c : Completion) : Option Server :=
  if s.stopped = false ∧ s.Pending c then some (s.handle c) else none

/-- What the system promises of a listener: if it does not listen, no accept completes
without an error. -/
def RefusesClients (listening : Bool) (cs : List Completion) : Prop :=
  listening = false → ∀ session, .accept session none ∉ cs

end Server

/-! ### What a list of completions says -/

namespace Completion

/-- The session an accept was for. -/
def accepted? : Completion → Option ℕ
  | .accept session _ => some session
  | .signal | .read _ _ => none

/-- The session of an accept without an error. -/
def client? : Completion → Option ℕ
  | .accept session none => some session
  | .accept _ (some _) | .signal | .read _ _ => none

/-- The session that was read. -/
def read? : Completion → Option ℕ
  | .read session _ => some session
  | .signal | .accept _ _ => none

/-- What the loggers are given. -/
def lines : Completion → List (LoggerLevel × Str)
  | .signal => [(.info, "Stopping server...".toList), (.info, "Server stopped gracefully.".toList)]
  | .accept _ none => [(.info, "New client.".toList)]
  | .accept _ (some _) => []
  | .read _ (some (.other message)) => [(.critical, message)]
  | .read _ (some .eof) | .read _ none => [(.info, "New msg".toList)]

section
variable (session : ℕ) (error : Option ErrorCode) (e : ErrorCode)

@[simp] theorem accepted?_signal : accepted? .signal = none := rfl
@[simp] theorem accepted?_accept : accepted? (.accept session error) = some session := rfl
@[simp] theorem accepted?_read : accepted? (.read session error) = none := rfl
@[simp] theorem client?_signal : client? .signal = none := rfl
@[simp] theorem client?_accept : client? (.accept session none) = some session := rfl
@[simp] theorem client?_failed : client? (.accept session (some e)) = none := rfl
@[simp] theorem client?_read : client? (.read session error) = none := rfl
@[simp] theorem read?_signal : read? .signal = none := rfl
@[simp] theorem read?_accept : read? (.accept session error) = none := rfl
@[simp] theorem read?_read : read? (.read session error) = some session := rfl

end

end Completion

namespace Server

variable {s s' s₀ : Server} {c : Completion} {cs : List Completion} {calls : ListenerCalls}

/-- What holds after the completions `cs`. -/
structure Serves (s : Server) (cs : List Completion) : Prop where
  sessions : s.sessions = (cs.filterMap Completion.accepted?).length + 1
  accepting : s.accepting = [(cs.filterMap Completion.accepted?).length]
  accepted : cs.filterMap Completion.accepted? =
    List.range (cs.filterMap Completion.accepted?).length
  clients : (s.reading ++ cs.filterMap Completion.read?).Perm (cs.filterMap Completion.client?)
  waiting : s.waiting = !s.stopped
  stopped : s.stopped = true ↔ .signal ∈ cs
  log : s.log = cs.flatMap Completion.lines

theorem serves_init (h : init calls = some s) :
    Serves s [] ∧ s.listening = (calls.open_ && calls.bind && calls.listen) := by
  have hserves : ∀ l : Bool, Serves (startAccept ⟨l, true, 0, [], [], false, []⟩) [] :=
    fun l => ⟨rfl, rfl, rfl, .refl _, rfl, by simp [startAccept], rfl⟩
  obtain ⟨o, t, b, l⟩ := calls
  simp only [init, setupListener, Option.bind_eq_bind, Option.bind_eq_some_iff, Option.pure_def,
    Option.some.injEq] at h
  obtain ⟨⟨u, ok⟩, hu, rfl⟩ := h
  split at hu
  · rename_i ho
    obtain rfl := (Prod.mk.inj (Option.some.inj hu)).1
    exact ⟨hserves false, by simp_all [startAccept]⟩
  split at hu
  · cases hu
  split at hu
  · rename_i hb
    obtain rfl := (Prod.mk.inj (Option.some.inj hu)).1
    exact ⟨hserves false, by simp_all [startAccept]⟩
  split at hu
  · rename_i hl
    obtain rfl := (Prod.mk.inj (Option.some.inj hu)).1
    exact ⟨hserves false, by simp_all [startAccept]⟩
  · obtain rfl := (Prod.mk.inj (Option.some.inj hu)).1
    exact ⟨hserves true, by simp_all [startAccept]⟩

/-! ### One completion -/

theorem step_eq_some :
    s.step c = some s' ↔ s.stopped = false ∧ s.Pending c ∧ s' = s.handle c := by
  rw [step, Option.ite_none_right_eq_some, Option.some.injEq, and_assoc, eq_comm (a := s')]

theorem Serves.signal (h : Serves s cs) (hs : s.step .signal = some s') :
    Serves s' (cs ++ [.signal]) ∧ s'.listening = s.listening := by
  obtain ⟨-, -, rfl⟩ := step_eq_some.mp hs
  refine ⟨?_, rfl⟩
  constructor
  · simp [handle, handleSignal, say, h.sessions]
  · simp [handle, handleSignal, say, h.accepting]
  · simpa [List.filterMap_cons] using h.accepted
  · simpa [handle, handleSignal, say, List.filterMap_cons] using h.clients
  · rfl
  · simp [handle, handleSignal, say]
  · simp [handle, handleSignal, say, Completion.lines, h.log]

theorem Serves.signal_notMem (h : Serves s cs) (hstop : s.stopped = false) :
    Completion.signal ∉ cs := by
  rw [← h.stopped, hstop]
  exact Bool.false_ne_true

/-- `HandleAccept` starts another accept, whatever the error. -/
theorem handleAccept_eq (s : Server) (session : ℕ) (error : Option ErrorCode) :
    s.handleAccept session error =
      { s with
        sessions := s.sessions + 1
        accepting := s.accepting ++ [s.sessions]
        reading := s.reading ++ (Completion.client? (.accept session error)).toList
        log := s.log ++ Completion.lines (.accept session error) } := by
  cases error with
  | none => rfl
  | some e => simp [handleAccept, startAccept, Completion.lines]

/-- The only accept that can complete is that for the session made last. -/
theorem Serves.accept (h : Serves s cs) {session : ℕ} {error : Option ErrorCode}
    (hs : s.step (.accept session error) = some s') :
    Serves s' (cs ++ [.accept session error]) ∧ s'.listening = s.listening := by
  obtain ⟨hstop, hmem, rfl⟩ := step_eq_some.mp hs
  rw [Pending, h.accepting, List.mem_singleton] at hmem
  subst hmem
  rw [handle, handleAccept_eq]
  refine ⟨?_, rfl⟩
  constructor
  · simp [h.sessions]
  · simp [h.accepting, h.sessions]
  · simp [List.range_succ, ← h.accepted]
  · -- the session joins those that are read if the accept has made it a client
    have hperm := h.clients.append_right
      (Completion.client? (.accept (cs.filterMap Completion.accepted?).length error)).toList
    rw [List.append_assoc] at hperm
    have hswap := (List.perm_append_comm.append_left s.reading).trans hperm
    cases error with
    | none => simpa [List.filterMap_cons] using hswap
    | some e => simpa [List.filterMap_cons] using hswap
  · exact h.waiting
  · simpa [hstop] using h.signal_notMem hstop
  · simp [h.log]

/-- `HandleRead` writes to the log, and that is all. -/
theorem handleRead_eq (s : Server) (session : ℕ) (error : Option ErrorCode) :
    s.handleRead error = { s with log := s.log ++ Completion.lines (.read session error) } := by
  match error with
  | none | some .eof | some (.other message) => rfl

theorem Serves.read (h : Serves s cs) {session : ℕ} {error : Option ErrorCode}
    (hs : s.step (.read session error) = some s') :
    Serves s' (cs ++ [.read session error]) ∧ s'.listening = s.listening := by
  obtain ⟨hstop, hmem, rfl⟩ := step_eq_some.mp hs
  rw [handle, handleRead_eq _ session]
  refine ⟨?_, rfl⟩
  constructor
  · simp [h.sessions]
  · simp [h.accepting]
  · simpa [List.filterMap_cons] using h.accepted
  · have hperm := ((List.perm_cons_erase hmem).append_right _).symm.trans h.clients
    simpa [List.filterMap_cons] using
      (List.perm_append_comm.append_left (s.reading.erase session)).trans
        ((List.perm_middle (a := session)).trans hperm)
  · exact h.waiting
  · simpa [hstop] using h.signal_notMem hstop
  · simp [h.log]

theorem Serves.step (h : Serves s cs) (hs : s.step c = some s') :
    Serves s' (cs ++ [c]) ∧ s'.listening = s.listening := by
  cases c with
  | signal => exact h.signal hs
  | accept session error => exact h.accept hs
  | read session error => exact h.read hs

theorem Serves.run (h : Serves s []) (hr : Machine.run Server.step s cs = some s') :
    Serves s' cs ∧ s'.listening = s.listening :=
  Machine.run_history (J := fun t cs => Serves t cs ∧ t.listening = s.listening)
    (fun _ _ _ _ h hs => ⟨(h.1.step hs).1, (h.1.step hs).2.trans h.2⟩) ⟨h, rfl⟩ hr

/-- After the signal there is nothing more. -/
theorem run_stopped (h : s.stopped = true) (hr : Machine.run step s cs = some s') : cs = [] := by
  cases cs with
  | nil => rfl
  | cons c cs =>
    have hnone : s.step c = none := by
      rw [step, h]
      exact if_neg fun hp => Bool.noConfusion hp.1
    rw [Machine.run_cons, hnone] at hr
    cases hr

theorem client?_sublist :
    (cs.filterMap Completion.client?).Sublist (cs.filterMap Completion.accepted?) := by
  induction cs with
  | nil => exact .slnil
  | cons c cs ih =>
    match c with
    | .signal | .read _ _ => exact ih
    | .accept _ none => exact ih.cons_cons _
    | .accept _ (some _) => exact ih.cons _

/-- **The accept loop.**  Whatever completes, one accept is pending, that for the
session made last, and the accepts complete in the order of the sessions.  The
clients accepted without an error are those being read and those that were read,
each of them once.  The signal, and nothing else, stops the server, and is the last
to complete; until then the server goes on. -/
theorem accept_loop (hinit : init calls = some s₀) (hrun : Machine.run step s₀ cs = some s) :
    s.accepting = [s.sessions - 1] ∧
    cs.filterMap Completion.accepted? = List.range (s.sessions - 1) ∧
    (s.reading ++ cs.filterMap Completion.read?).Perm (cs.filterMap Completion.client?) ∧
    (cs.filterMap Completion.client?).Nodup ∧
    (s.stopped = true ↔ .signal ∈ cs) ∧ .signal ∉ cs.dropLast ∧
    s.log = cs.flatMap Completion.lines ∧
    (s.stopped = false → (s.step .signal).isSome ∧
      ∀ e, (s.step (.accept (s.sessions - 1) (some e))).isSome) := by
  obtain ⟨h, -⟩ := (serves_init hinit).1.run hrun
  have hlast : s.sessions - 1 = (cs.filterMap Completion.accepted?).length := by
    rw [h.sessions, Nat.add_sub_cancel]
  rw [hlast]
  refine ⟨h.accepting, h.accepted, h.clients, client?_sublist.nodup ?_, h.stopped, ?_, h.log, ?_⟩
  · rw [h.accepted]
    exact List.nodup_range
  · intro hmem
    obtain ⟨as, bs, has⟩ := List.append_of_mem hmem
    have hne : cs ≠ [] := by
      rintro rfl
      cases hmem
    rw [← List.dropLast_append_getLast hne, has, List.append_assoc, Machine.run_append,
      Option.bind_eq_some_iff] at hrun
    obtain ⟨t, ht, hrun⟩ := hrun
    rw [List.cons_append, Machine.run_cons, Option.bind_eq_some_iff] at hrun
    obtain ⟨u, hu, hrun⟩ := hrun
    obtain ⟨-, -, rfl⟩ := step_eq_some.mp hu
    have hnil := run_stopped rfl hrun
    simp at hnil
  · intro hstop
    have hwait : s.waiting = true := by rw [h.waiting, hstop]; rfl
    have hmem : (cs.filterMap Completion.accepted?).length ∈ s.accepting := by
      rw [h.accepting]
      exact List.mem_singleton_self _
    exact ⟨Option.isSome_iff_exists.mpr ⟨_, step_eq_some.mpr ⟨hstop, hwait, rfl⟩⟩, fun e =>
      Option.isSome_iff_exists.mpr ⟨_, step_eq_some.mpr ⟨hstop, hmem, rfl⟩⟩⟩

/-- A client connects and is read, another accept fails, and the signal arrives. -/
theorem accept_loop_client : ∃ s₀ s : Server, init ⟨true, true, true, true⟩ = some s₀ ∧
    Machine.run step s₀ [.accept 0 none, .accept 1 (some .eof), .read 0 none, .signal] = some s ∧
    s.accepting = [2] ∧ s.reading = [] ∧ s.log.length = 4 := by
  obtain ⟨s₀, hinit⟩ := Option.isSome_iff_exists.mp
    (show (init ⟨true, true, true, true⟩).isSome from rfl)
  obtain ⟨s, hs⟩ := Option.isSome_iff_exists.mp
    (show (Machine.run step s₀
        [.accept 0 none, .accept 1 (some .eof), .read 0 none, .signal]).isSome from by
      obtain rfl := Option.some.inj hinit
      decide)
  have h := accept_loop hinit hs
  have hsessions : s.sessions = 3 := by
    obtain rfl := Option.some.inj hinit
    obtain rfl := Option.some.inj hs
    rfl
  refine ⟨s₀, s, hinit, hs, ?_, ?_, ?_⟩
  · rw [h.1, hsessions]
  · have hperm := h.2.2.1.length_eq
    rw [List.length_append] at hperm
    exact List.eq_nil_of_length_eq_zero (Nat.add_right_cancel (hperm.trans (Nat.zero_add 1).symm))
  · rw [h.2.2.2.2.2.2.1]
    rfl

/-! ### A listener that was not set up -/

/-- Where no client is accepted, accepts fail, and there is nobody to read. -/
theorem Serves.refused (h : Serves s cs) (hrefuse : ∀ session, .accept session none ∉ cs) :
    s.reading = [] ∧ ∀ c ∈ cs, c = .signal ∨ ∃ i e, c = .accept i (some e) := by
  have hclients : cs.filterMap Completion.client? = [] := by
    rw [List.filterMap_eq_nil_iff]
    rintro (- | ⟨i, - | e⟩ | ⟨i, error⟩) hc
    · rfl
    · exact absurd hc (hrefuse i)
    · rfl
    · rfl
  -- who was read was a client
  have hreads := h.clients
  rw [hclients, List.perm_nil, List.append_eq_nil_iff] at hreads
  refine ⟨hreads.1, ?_⟩
  rintro (- | ⟨i, - | e⟩ | ⟨i, error⟩) hc
  · exact .inl rfl
  · exact absurd hc (hrefuse i)
  · exact .inr ⟨i, e, rfl⟩
  · cases List.filterMap_eq_nil_iff.mp hreads.2 _ hc

/-- The accept pending may fail, and is followed by another. -/
theorem Serves.fail (h : Serves s cs) (hstop : s.stopped = false) (e : ErrorCode) :
    ∃ s', s.step (.accept (s.sessions - 1) (some e)) = some s' ∧
      s'.stopped = false ∧ s'.sessions = s.sessions + 1 := by
  refine ⟨_, step_eq_some.mpr ⟨hstop, ?_, rfl⟩, hstop, rfl⟩
  rw [Pending, h.accepting, h.sessions, Nat.add_sub_cancel]
  exact List.mem_singleton_self _

/-- **A listener that was not set up.**  The result of `SetupListener` is not looked
at: where a call failed, and the system refuses clients on such a listener, nothing is
ever read, and the loggers are given nothing until the signal; and the server does not
stop for it: any number of accepts may fail, each is followed by another. -/
theorem listener_unchecked (hinit : init calls = some s₀)
    (hfail : (calls.open_ && calls.bind && calls.listen) = false) :
    (∀ cs s, RefusesClients s₀.listening cs → Machine.run step s₀ cs = some s →
      (∀ session error, .read session error ∉ cs) ∧ s.reading = [] ∧
        (s.stopped = false → s.log = [])) ∧
    ∀ es : List ErrorCode, ∃ s,
      RefusesClients s₀.listening (es.mapIdx fun i e => .accept i (some e)) ∧
      Machine.run step s₀ (es.mapIdx fun i e => .accept i (some e)) = some s ∧
        s.stopped = false ∧ s.sessions = es.length + 1 := by
  obtain ⟨h₀, hl⟩ := serves_init hinit
  rw [hfail] at hl
  constructor
  · intro cs s hrefuse hr
    obtain ⟨h, -⟩ := h₀.run hr
    obtain ⟨hreading, hall⟩ := h.refused (hrefuse hl)
    refine ⟨fun i error hc => ?_, hreading, fun hstop => ?_⟩
    · obtain hc | ⟨j, e, hc⟩ := hall _ hc
      · cases hc
      · cases hc
    · rw [h.log, List.flatMap_eq_nil_iff]
      intro c hc
      obtain rfl | ⟨i, e, rfl⟩ := hall c hc
      · rw [h.stopped.mpr hc] at hstop
        cases hstop
      · rfl
  · intro es
    suffices ∃ s, Machine.run step s₀ (es.mapIdx fun i e => .accept i (some e)) = some s ∧
        s.stopped = false ∧ s.sessions = es.length + 1 by
      obtain ⟨s, hr, hstop, hsessions⟩ := this
      refine ⟨s, fun _ session hmem => ?_, hr, hstop, hsessions⟩
      obtain ⟨i, hi, hc⟩ := List.mem_mapIdx.mp hmem
      cases hc
    induction es using List.reverseRecOn with
    | nil =>
      refine ⟨s₀, rfl, ?_, h₀.sessions⟩
      rw [← Bool.not_eq_true, h₀.stopped]
      exact List.not_mem_nil
    | append_singleton es e ih =>
      obtain ⟨s, hr, hstop, hsessions⟩ := ih
      obtain ⟨s', hs, hstop', hsessions'⟩ := (h₀.run hr).1.fail hstop e
      rw [hsessions, Nat.add_sub_cancel] at hs
      refine ⟨s', ?_, hstop', by rw [hsessions', hsessions, List.length_append]; rfl⟩
      rw [List.mapIdx_append, Machine.run_append, hr]
      show (s.step (.accept (0 + es.length) (some e))).bind _ = _
      rw [Nat.zero_add, hs]
      rfl

/-- The port is taken: two accepts fail, and nobody is told. -/
theorem listener_unchecked_bind : ∃ s₀ s : Server, init ⟨true, true, false, true⟩ = some s₀ ∧
    Machine.run step s₀ [.accept 0 (some .eof), .accept 1 (some .eof)] = some s ∧
    s.sessions = 3 ∧ s.log = [] := by
  obtain ⟨s₀, hinit⟩ := Option.isSome_iff_exists.mp
    (show (init ⟨true, true, false, true⟩).isSome from rfl)
  obtain ⟨hsilent, hforever⟩ := listener_unchecked hinit rfl
  obtain ⟨s, hrefuse, hr, hstop, hsessions⟩ := hforever [.eof, .eof]
  exact ⟨s₀, s, hinit, hr, hsessions, (hsilent _ s hrefuse hr).2.2 hstop⟩

end Server

end Indie
