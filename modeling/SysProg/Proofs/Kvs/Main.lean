import SysProg.Proofs.Kvs.ServerStep
import SysProg.Proofs.Kvs.Teardown

/-!
# `SysProg.Proofs.Kvs.Main`: the server ends after its workers

`main` joins every worker that it has created before it closes the listening socket and ends the
table. So at that point no thread is in a table function, and no connection is open.

* `Shape` says what each step does, and every proof about the steps has its cases.
* `Loops` ties the place of a worker in its loops to the stage of its session.
* `MainInv` says what the counters of `main` mean for the workers.
* `Running` and `Ended` are about the table, before and after its end.
* `Inv.step` is the step lemma for all of them. The steps of the workers are `Moved`.

`server_ends_safely` and `server_dumps` are the results for runs.
-/

set_option autoImplicit false

namespace SysProg.Kvs

open SysProg.Lib

namespace Process

variable {n : Nat} {p p' : Process n} {t : Fin n}

/-! ### The steps -/

/-- What a step does, and where the thread is that does it. There is one case for each branch of
`main` and of the two loops of `handle_client`. -/
inductive Shape (p : Process n) : ProcessAction n → Process n → List (Event n) → Prop where
  | sigint : Shape p .sigint { p with shutdown := true } []
  | create {i : Nat} (hi : i < n) (hmain : p.main = .creating i) :
      Shape p (.main true) { p.move ⟨i, hi⟩ .outer false with main := .creating (i + 1) } []
  | created {i : Nat} {ok : Bool} (hmain : p.main = .creating i) :
      Shape p (.main ok) { p with main := .joining 0 i } []
  | join {i created : Nat} {ok : Bool} (hi : i < created ∧ i < n)
      (hmain : p.main = .joining i created) (hexited : p.place ⟨i, hi.2⟩ = .exited) :
      Shape p (.main ok) { p with main := .joining (i + 1) created } []
  | joined {i created : Nat} {ok : Bool} (hi : ¬ (i < created ∧ i < n))
      (hmain : p.main = .joining i created) : Shape p (.main ok) { p with main := .closing } []
  | close {ok : Bool} (hmain : p.main = .closing) :
      Shape p (.main ok) { p with listening := false, main := .destroying } []
  | destroy {ok : Bool} {table : Table} {text : List UInt8} (hmain : p.main = .destroying)
      (hdestroy : skvsDestroy p.server.shared true = some (table, text)) :
      Shape p (.main ok)
        { p with
          main := .finished
          server := { p.server with shared := { p.server.shared with table := table } } }
        [.dumped text]
  | undefined {ok : Bool} (hmain : p.main = .destroying)
      (hdestroy : skvsDestroy p.server.shared true = none) :
      Shape p (.main ok) { p with main := .finished, fault := true } []
  | exit {t : Fin n} (hplace : p.place t = .outer) (hshutdown : p.shutdown = true) :
      Shape p (.check t) (p.move t .exited false) []
  | goOn {t : Fin n} (hplace : p.place t = .outer) (hshutdown : p.shutdown = false) :
      Shape p (.check t) (p.move t .accepting false) []
  | hangUp {t : Fin n} (hplace : p.place t = .inner) (hshutdown : p.shutdown = true) :
      Shape p (.check t)
        { p.move t .outer false with
          server := p.server.setWorker t { p.server.workers t with stage := .accepting } } []
  | enter {t : Fin n} (hplace : p.place t = .inner) (hshutdown : p.shutdown = false) :
      Shape p (.check t) (p.move t .session true) []
  | connect {t : Fin n} {ok : Bool} (hplace : p.place t = .accepting) :
      Shape p (.accept t ok)
        { p.move t .inner true with
          server := p.server.setWorker t ⟨(p.server.workers t).rbuf, 0, .receiving⟩ }
        [.accepted t]
  | timeOut {t : Fin n} {ok : Bool} (hplace : p.place t = .accepting) :
      Shape p (.accept t ok) (p.move t .outer false) []
  | session {a : ServerAction (Fin n)} {server : Server (Fin n)}
      {sends : List (Fin n × List UInt8)} (hplace : p.place a.tid = .session)
      (hserver : p.server.step a = some (server, sends)) :
      Shape p (.serve a)
        { p.move a.tid (server.workers a.tid).stage.place
            (decide ((server.workers a.tid).stage.place ≠ .outer)) with
          server := server
          fault := p.fault || decide (p.main = .finished) }
        ((a.received.map fun m => .received m.1 m.2) ++
          ((p.server.events a).map .table ++ sends.map fun m => .sent m.1 m.2))

/-- A step of `main` has the shape of its branch. The proof goes along the branches of the function.
-/
theorem shape_of_mainStep {ok : Bool} {es : List (Event n)}
    (hstep : p.mainStep ok = some (p', es)) : Shape p (.main ok) p' es := by
  unfold mainStep at hstep
  split at hstep
  case h_1 i hmain =>
    split at hstep
    case isFalse =>
      cases hstep
      exact .created hmain
    case isTrue hi =>
      cases ok with
      | false =>
          cases hstep
          exact .created hmain
      | true =>
          cases hstep
          exact .create hi hmain
  case h_2 i created hmain =>
    split at hstep
    case isFalse hi =>
      cases hstep
      exact .joined hi hmain
    case isTrue hi =>
      split at hstep
      case isFalse => cases hstep
      case isTrue hexited =>
        cases hstep
        exact .join hi hmain hexited
  case h_3 hmain =>
    cases hstep
    exact .close hmain
  case h_4 hmain =>
    split at hstep
    case h_1 hdestroy =>
      cases hstep
      exact .undefined hmain hdestroy
    case h_2 table text hdestroy =>
      cases hstep
      exact .destroy hmain hdestroy
  case h_5 => cases hstep

/-- A test of `g_shutdown` has the shape of its loop and its outcome. Elsewhere in `handle_client`
there is no test. -/
theorem shape_of_check {es : List (Event n)} (hstep : p.check t = some (p', es)) :
    Shape p (.check t) p' es := by
  unfold check at hstep
  cases hshutdown : p.shutdown with
  | true =>
      rw [hshutdown] at hstep
      split at hstep
      case h_1 hplace =>
        cases hstep
        exact .exit hplace hshutdown
      case h_2 hplace =>
        cases hstep
        exact .hangUp hplace hshutdown
      case h_3 => cases hstep
  | false =>
      rw [hshutdown] at hstep
      split at hstep
      case h_1 hplace =>
        cases hstep
        exact .goOn hplace hshutdown
      case h_2 hplace =>
        cases hstep
        exact .enter hplace hshutdown
      case h_3 => cases hstep

/-- Every step has one of the shapes. So what holds of all steps is proved with one case for each
of them, and no proof has to open the functions again. -/
theorem shape_of_step {a : ProcessAction n} {es : List (Event n)}
    (hstep : p.step a = some (p', es)) : Shape p a p' es := by
  cases a with
  | sigint =>
      cases hstep
      exact .sigint
  | main ok => exact shape_of_mainStep hstep
  | check t => exact shape_of_check hstep
  | accept t ok =>
      have haccept : p.accept t ok = some (p', es) := hstep
      unfold Process.accept at haccept
      split at haccept
      case h_2 => cases haccept
      case h_1 hplace =>
        split at haccept
        case isFalse =>
          cases haccept
          exact .timeOut hplace
        case isTrue =>
          obtain ⟨⟨server, sends⟩, hserver, heq⟩ := Option.map_eq_some_iff.mp haccept
          simp only [Server.step] at hserver
          split at hserver
          case h_2 => cases hserver
          case h_1 =>
            cases hserver
            cases heq
            exact .connect hplace
  | serve a =>
      have hserve : p.serve a = some (p', es) := hstep
      unfold Process.serve at hserve
      split at hserve
      case h_2 => cases hserve
      case h_1 hplace =>
        obtain ⟨⟨server, sends⟩, hserver, heq⟩ := Option.map_eq_some_iff.mp hserve
        cases heq
        exact .session hplace hserver

/-! ### The loops of the workers -/

/-- The stage of a worker fits its place. A worker has a connection in the inner loop only, and
returns only after the signal. -/
structure Loops (p : Process n) : Prop where
  outside : ∀ t, p.place t ≠ .inner → p.place t ≠ .session →
    (p.server.workers t).stage = .accepting
  inner : ∀ t, p.place t = .inner → (p.server.workers t).stage = .receiving
  session : ∀ t, p.place t = .session → (p.server.workers t).stage ≠ .accepting
  connected : ∀ t, p.connected t = true ↔ p.place t = .inner ∨ p.place t = .session
  exited : ∀ t, p.place t = .exited → p.shutdown = true

/-- At the start no worker exists, so none is in a loop. -/
theorem Loops.init (hashSize : UInt64) (rbufs : Fin n → List UInt8) :
    (Process.init n hashSize rbufs).Loops where
  outside _ _ _ := rfl
  inner _ hplace := by cases hplace
  session _ hplace := by cases hplace
  connected t := by simp [Process.init]
  exited _ hplace := by cases hplace

/-- One worker moves. The stage at its new place has to fit, and the other workers stay. -/
theorem Loops.move {place : Place} {server : Server (Fin n)} {fault : Bool} (h : p.Loops)
    (hothers : ∀ u, u ≠ t → server.workers u = p.server.workers u)
    (houtside : place ≠ .inner → place ≠ .session → (server.workers t).stage = .accepting)
    (hinner : place = .inner → (server.workers t).stage = .receiving)
    (hsession : place = .session → (server.workers t).stage ≠ .accepting)
    (hexited : place = .exited → p.shutdown = true) {connected : Bool}
    (hconnected : connected = true ↔ place = .inner ∨ place = .session) :
    Loops { p.move t place connected with server := server, fault := fault } := by
  have hself : Function.update p.place t place t = place := Function.update_self _ _ _
  have hne : ∀ u, u ≠ t → Function.update p.place t place u = p.place u :=
    fun u hu => Function.update_of_ne hu _ _
  constructor
  case outside =>
    intro u
    show Function.update p.place t place u ≠ _ → Function.update p.place t place u ≠ _ → _
    by_cases hut : u = t
    · subst hut
      rw [hself]
      exact houtside
    · rw [hne u hut, hothers u hut]
      exact h.outside u
  case inner =>
    intro u
    show Function.update p.place t place u = _ → _
    by_cases hut : u = t
    · subst hut
      rw [hself]
      exact hinner
    · rw [hne u hut, hothers u hut]
      exact h.inner u
  case session =>
    intro u
    show Function.update p.place t place u = _ → _
    by_cases hut : u = t
    · subst hut
      rw [hself]
      exact hsession
    · rw [hne u hut, hothers u hut]
      exact h.session u
  case connected =>
    intro u
    show Function.update p.connected t connected u = true ↔
      Function.update p.place t place u = _ ∨ Function.update p.place t place u = _
    by_cases hut : u = t
    · subst hut
      rw [hself, Function.update_self]
      exact hconnected
    · rw [hne u hut, Function.update_of_ne hut]
      exact h.connected u
  case exited =>
    intro u
    show Function.update p.place t place u = _ → _
    by_cases hut : u = t
    · subst hut
      rw [hself]
      exact hexited
    · rw [hne u hut]
      exact h.exited u

/-! ### The counters of `main` -/

/-- What the place of `main` means for the workers. -/
def MainInv (p : Process n) : Prop :=
  match p.main with
  | .creating i => p.listening = true ∧ i ≤ n ∧ ∀ t, p.place t = .absent ↔ i ≤ t.val
  | .joining i created => p.listening = true ∧ created ≤ n ∧
      (∀ t, p.place t = .absent ↔ created ≤ t.val) ∧ ∀ t, t.val < i → p.place t = .exited
  | .closing => p.listening = true ∧ ∀ t, p.place t = .absent ∨ p.place t = .exited
  | .destroying | .finished =>
      p.listening = false ∧ ∀ t, p.place t = .absent ∨ p.place t = .exited

/-- The worker that `main` creates next does not run yet. -/
theorem MainInv.absent (h : p.MainInv) {i : Nat} (hmain : p.main = .creating i) (hi : i < n) :
    p.place ⟨i, hi⟩ = .absent := by
  unfold MainInv at h
  rw [hmain] at h
  exact (h.2.2 ⟨i, hi⟩).mpr (Nat.le_refl i)

/-- The worker `t` runs, and does a step. -/
structure Moved (p p' : Process n) (t : Fin n) : Prop where
  main : p'.main = p.main
  listening : p'.listening = p.listening
  others : ∀ u, u ≠ t → p'.place u = p.place u
  live : p.place t ≠ .absent ∧ p.place t ≠ .exited
  here : p'.place t ≠ .absent

/-- A worker that runs has been created and not been joined. So `main` is in one of its two loops,
and the socket is open. -/
theorem MainInv.live (h : p.MainInv) (hlive : p.place t ≠ .absent ∧ p.place t ≠ .exited) :
    p.listening = true ∧ p.main ≠ .finished ∧
      ((∃ i, p.main = .creating i) ∨ ∃ i created, p.main = .joining i created) := by
  have hgone : ¬ ∀ u, p.place u = .absent ∨ p.place u = .exited := fun hall =>
    (hall t).elim hlive.1 hlive.2
  unfold MainInv at h
  cases hmain : p.main with
  | creating i =>
      rw [hmain] at h
      exact ⟨h.1, MainPc.noConfusion, Or.inl ⟨i, rfl⟩⟩
  | joining i created =>
      rw [hmain] at h
      exact ⟨h.1, MainPc.noConfusion, Or.inr ⟨i, created, rfl⟩⟩
  | closing =>
      rw [hmain] at h
      exact absurd h.2 hgone
  | destroying =>
      rw [hmain] at h
      exact absurd h.2 hgone
  | finished =>
      rw [hmain] at h
      exact absurd h.2 hgone

/-- The steps of the workers do not change what the counters mean. A worker does not become absent,
and one that has returned does not step. -/
theorem MainInv.moved (h : p.MainInv) (hmoved : Moved p p' t) : p'.MainInv := by
  have habsent : ∀ {k : Nat}, (∀ u, p.place u = .absent ↔ k ≤ u.val) →
      ∀ u, p'.place u = .absent ↔ k ≤ u.val := by
    intro k hk u
    by_cases hut : u = t
    · subst hut
      exact ⟨fun heq => absurd heq hmoved.here,
        fun hle => absurd ((hk u).mpr hle) hmoved.live.1⟩
    · rw [hmoved.others u hut]
      exact hk u
  obtain ⟨-, -, ⟨i, hmain⟩ | ⟨i, created, hmain⟩⟩ := h.live hmoved.live
  · unfold MainInv at h ⊢
    rw [hmain] at h
    rw [hmoved.main, hmain, hmoved.listening]
    exact ⟨h.1, h.2.1, habsent h.2.2⟩
  · unfold MainInv at h ⊢
    rw [hmain] at h
    rw [hmoved.main, hmain, hmoved.listening]
    refine ⟨h.1, h.2.1, habsent h.2.2.1, fun u hu => ?_⟩
    have hexited := h.2.2.2 u hu
    by_cases hut : u = t
    · subst hut
      exact absurd hexited hmoved.live.2
    · rw [hmoved.others u hut]
      exact hexited

/-! ### The table and its end -/

/-- The table before its end. No sleeping thread has been forgotten. -/
structure Running (hashSize : UInt64) (p : Process n) (log : List (Event n)) : Prop where
  lin : LinInv p.server.shared (history log)
  asleep : ∀ i, AsleepBlocked (p.server.shared.locks i)
  size : p.server.shared.table.hashSize = hashSize
  quiet : dumps log = []

/-- The table after its end. No node is left, and the dump shows the map of all operations. -/
structure Ended (hashSize : UInt64) (p : Process n) (log : List (Event n)) : Prop where
  freed : ∀ q, p.server.shared.table.nodes q = none
  dump : ∃ text m, dumps log = [text] ∧ Shows hashSize m text ∧
    Legal Request.Spec (fun _ => none) (completed (history log)) m

/-- The invariant of the server. -/
structure Inv (hashSize : UInt64) (p : Process n) (log : List (Event n)) : Prop where
  loops : p.Loops
  main : p.MainInv
  coupled : p.server.Coupled
  fault : p.fault = false
  running : p.main ≠ .finished → Running hashSize p log
  ended : p.main = .finished → Ended hashSize p log

/-- The process at its start keeps the invariant. The table is empty and nothing is logged. -/
theorem Inv.init {hashSize : UInt64} (hpos : 0 < hashSize) (hle : hashSize ≤ 2147483647)
    (rbufs : Fin n → List UInt8) : Inv hashSize (Process.init n hashSize rbufs) [] where
  loops := .init hashSize rbufs
  main := ⟨rfl, Nat.zero_le n, fun t => ⟨fun _ => Nat.zero_le t, fun _ => rfl⟩⟩
  coupled := .init hashSize rbufs
  fault := rfl
  running _ :=
    { lin := LinInv.init hpos hle
      asleep := fun _ t w hp => by cases hp
      size := rfl
      quiet := rfl }
  ended hmain := by cases hmain

section
variable {hashSize : UInt64} {log es : List (Event n)}

/-- The history of two parts of a log is that of the first and then that of the second. -/
theorem history_append : history (log ++ es) = history log ++ history es := List.filterMap_append

/-- The same for the lines of the dump. -/
theorem dumps_append : dumps (log ++ es) = dumps log ++ dumps es := List.filterMap_append

/-- What a step in a session emits. Its history is that of the table, and it has no dump. -/
theorem history_serve (received sends : List (Fin n × List UInt8))
    (hs : List (HistoryEvent (Fin n) Request Outcome)) :
    history ((received.map fun m => Event.received m.1 m.2) ++
      (hs.map .table ++ sends.map fun m => Event.sent m.1 m.2)) = hs ∧
    dumps ((received.map fun m => Event.received m.1 m.2) ++
      (hs.map .table ++ sends.map fun m => Event.sent m.1 m.2)) = [] := by
  have hreceived : history (received.map fun m => Event.received m.1 m.2) = [] ∧
      dumps (received.map fun m => Event.received m.1 m.2) = [] := by
    induction received with
    | nil => exact ⟨rfl, rfl⟩
    | cons m received ih => exact ih
  have hsends : history (sends.map fun m => Event.sent m.1 m.2) = [] ∧
      dumps (sends.map fun m => Event.sent m.1 m.2) = [] := by
    induction sends with
    | nil => exact ⟨rfl, rfl⟩
    | cons m sends ih => exact ih
  rw [history_append, dumps_append, hreceived.1, hreceived.2, List.nil_append, List.nil_append,
    history_append, dumps_append, hsends.1, hsends.2, List.append_nil, List.append_nil]
  induction hs with
  | nil => exact ⟨rfl, rfl⟩
  | cons e hs ih =>
      refine ⟨?_, ih.2⟩
      show e :: history (hs.map .table) = e :: hs
      rw [ih.1]

/-- A step that leaves the table and the workers in their stages. It logs nothing that the history
or the dump is made of. -/
theorem Inv.quiet (h : Inv hashSize p log) (hloops : p'.Loops) (hmain : p'.MainInv)
    (hcoupled : p'.server.Coupled) (hshared : p'.server.shared = p.server.shared)
    (hfault : p'.fault = p.fault) (hrun : p.main ≠ .finished) (hrun' : p'.main ≠ .finished)
    (hhistory : history es = []) (hdumps : dumps es = []) : Inv hashSize p' (log ++ es) where
  loops := hloops
  main := hmain
  coupled := hcoupled
  fault := hfault.trans h.fault
  running _ := by
    obtain ⟨hlin, hasleep, hsize, hquiet⟩ := h.running hrun
    refine ⟨?_, ?_, ?_, ?_⟩
    · rw [history_append, hhistory, List.append_nil, hshared]
      exact hlin
    · rw [hshared]
      exact hasleep
    · rw [hshared]
      exact hsize
    · rw [dumps_append, hdumps, List.append_nil]
      exact hquiet
  ended hmain' := absurd hmain' hrun'

/-- At the end no thread is in a table function. -/
theorem Inv.idle (h : Inv hashSize p log)
    (hgone : ∀ t, p.place t = .absent ∨ p.place t = .exited) (t : Fin n) :
    p.server.shared.pc t = .idle := by
  refine h.coupled.outside t fun op => ?_
  have hstage : (p.server.workers t).stage = .accepting := by
    rcases hgone t with hplace | hplace
    · exact h.loops.outside t (by rw [hplace]; exact Place.noConfusion)
        (by rw [hplace]; exact Place.noConfusion)
    · exact h.loops.outside t (by rw [hplace]; exact Place.noConfusion)
        (by rw [hplace]; exact Place.noConfusion)
  rw [hstage]
  exact Stage.noConfusion

/-- `main` creates one worker, which was absent before and starts in front of the outer loop. -/
theorem Inv.create (h : Inv hashSize p log) {i : Nat} (hmain : p.main = .creating i) (hi : i < n) :
    Inv hashSize { p.move ⟨i, hi⟩ .outer false with main := .creating (i + 1) } (log ++ []) := by
  have hinv := h.main
  unfold MainInv at hinv
  rw [hmain] at hinv
  obtain ⟨hlistening, hle, habsent⟩ := hinv
  have hplace := h.main.absent hmain hi
  have hstage : (p.server.workers ⟨i, hi⟩).stage = .accepting :=
    h.loops.outside _ (by rw [hplace]; exact Place.noConfusion)
      (by rw [hplace]; exact Place.noConfusion)
  have hloops : Loops { p.move ⟨i, hi⟩ .outer false with server := p.server, fault := p.fault } :=
    h.loops.move (fun _ _ => rfl) (fun _ _ => hstage) Place.noConfusion Place.noConfusion
      Place.noConfusion (by decide)
  refine h.quiet ?_ ?_ h.coupled rfl rfl (by rw [hmain]; exact MainPc.noConfusion)
    MainPc.noConfusion rfl rfl
  · exact ⟨hloops.outside, hloops.inner, hloops.session, hloops.connected, hloops.exited⟩
  · refine ⟨hlistening, hi, fun t => ?_⟩
    show Function.update p.place ⟨i, hi⟩ .outer t = .absent ↔ i + 1 ≤ t.val
    by_cases ht : t = ⟨i, hi⟩
    · subst ht
      rw [Function.update_self]
      exact ⟨Place.noConfusion, fun hlt => absurd hlt (Nat.not_succ_le_self i)⟩
    · have hne : t.val ≠ i := fun heq => ht (Fin.ext heq)
      rw [Function.update_of_ne ht, habsent t]
      omega

/-- `main` moves on, and everything else stays. -/
theorem Inv.goto (h : Inv hashSize p log) {pc : MainPc} (hrun : p.main ≠ .finished)
    (hpc : pc ≠ .finished) (hinv : MainInv { p with main := pc }) :
    Inv hashSize { p with main := pc } (log ++ []) :=
  h.quiet ⟨h.loops.outside, h.loops.inner, h.loops.session, h.loops.connected, h.loops.exited⟩ hinv
    h.coupled rfl rfl hrun hpc rfl rfl

/-- `main` ends the table. Nothing undefined happens, and the invariant holds behind it. -/
theorem Inv.destroy (h : Inv hashSize p log) (hmain : p.main = .destroying) :
    ∃ table text, skvsDestroy p.server.shared true = some (table, text) ∧
      Inv hashSize
        { p with
          main := .finished
          server := { p.server with shared := { p.server.shared with table := table } } }
        (log ++ [.dumped text]) := by
  have hinv := h.main
  unfold MainInv at hinv
  rw [hmain] at hinv
  obtain ⟨hlistening, hgone⟩ := hinv
  have hidle := h.idle hgone
  obtain ⟨hlin, -, hsize, hquiet⟩ := h.running (by rw [hmain]; exact MainPc.noConfusion)
  obtain ⟨ps, m, hs, hlegal⟩ := hlin.inv
  obtain ⟨table, text, hdestroy, hshows, hfreed⟩ := skvsDestroy_spec hs hidle
  rw [hsize] at hshows
  refine ⟨table, text, hdestroy, ?_⟩
  constructor
  case loops =>
    exact ⟨h.loops.outside, h.loops.inner, h.loops.session, h.loops.connected, h.loops.exited⟩
  case main => exact ⟨hlistening, hgone⟩
  case coupled => exact ⟨h.coupled.outside, h.coupled.inside⟩
  case fault => exact h.fault
  case running => exact fun hne => absurd rfl hne
  case ended =>
    refine fun _ => ⟨hfreed, text, m, ?_, hshows, ?_⟩
    · rw [dumps_append, hquiet]
      rfl
    · have hsame : history (log ++ [Event.dumped text]) = history log := by
        rw [history_append]
        exact List.append_nil _
      rw [hsame]
      exact hlegal

/-- `main` goes on to the loop that joins the workers. -/
theorem Inv.created (h : Inv hashSize p log) {i : Nat} (hmain : p.main = .creating i) :
    Inv hashSize { p with main := .joining 0 i } (log ++ []) := by
  have hinv := h.main
  unfold MainInv at hinv
  rw [hmain] at hinv
  refine h.goto (by rw [hmain]; exact MainPc.noConfusion) MainPc.noConfusion ?_
  exact ⟨hinv.1, hinv.2.1, hinv.2.2, fun t ht => absurd ht (Nat.not_lt_zero _)⟩

/-- `main` joins one worker, which has returned. -/
theorem Inv.join (h : Inv hashSize p log) {i created : Nat} (hi : i < n)
    (hmain : p.main = .joining i created) (hexited : p.place ⟨i, hi⟩ = .exited) :
    Inv hashSize { p with main := .joining (i + 1) created } (log ++ []) := by
  have hinv := h.main
  unfold MainInv at hinv
  rw [hmain] at hinv
  obtain ⟨hlistening, hle, habsent, hjoined⟩ := hinv
  refine h.goto (by rw [hmain]; exact MainPc.noConfusion) MainPc.noConfusion
    ⟨hlistening, hle, habsent, fun t ht => ?_⟩
  rcases Nat.lt_succ_iff_lt_or_eq.mp ht with hlt | heq
  · exact hjoined t hlt
  · have ht' : t = ⟨i, hi⟩ := Fin.ext heq
    rw [ht']
    exact hexited

/-- Behind the last join every worker is joined, or was not created. -/
theorem Inv.joined (h : Inv hashSize p log) {i created : Nat} (hi : ¬ (i < created ∧ i < n))
    (hmain : p.main = .joining i created) :
    Inv hashSize { p with main := .closing } (log ++ []) := by
  have hinv := h.main
  unfold MainInv at hinv
  rw [hmain] at hinv
  obtain ⟨hlistening, -, habsent, hjoined⟩ := hinv
  refine h.goto (by rw [hmain]; exact MainPc.noConfusion) MainPc.noConfusion
    ⟨hlistening, fun t => ?_⟩
  by_cases ht : created ≤ t.val
  · exact Or.inl ((habsent t).mpr ht)
  · refine Or.inr (hjoined t ?_)
    have htn := t.isLt
    omega

/-- `main` closes the listening socket. No worker runs any more. -/
theorem Inv.close (h : Inv hashSize p log) (hmain : p.main = .closing) :
    Inv hashSize { p with listening := false, main := .destroying } (log ++ []) := by
  have hinv := h.main
  unfold MainInv at hinv
  rw [hmain] at hinv
  exact h.quiet ⟨h.loops.outside, h.loops.inner, h.loops.session, h.loops.connected,
    h.loops.exited⟩ ⟨rfl, hinv.2⟩ h.coupled rfl rfl (by rw [hmain]; exact MainPc.noConfusion)
    MainPc.noConfusion rfl rfl

/-! ### The steps of the workers -/

omit log es in
/-- A worker that moves is the only one that does. -/
theorem moved_move {place : Place} {connected : Bool} {server : Server (Fin n)} {fault : Bool}
    (hlive : p.place t ≠ .absent ∧ p.place t ≠ .exited) (hplace : place ≠ .absent) :
    Moved p { p.move t place connected with server := server, fault := fault } t where
  main := rfl
  listening := rfl
  others _ hu := Function.update_of_ne hu _ _
  live := hlive
  here := by
    show Function.update p.place t place t ≠ .absent
    rw [Function.update_self]
    exact hplace

omit log es in
/-- A worker that is at a place of its loops runs. -/
theorem live_of_place {place : Place} (hplace : p.place t = place) (habsent : place ≠ .absent)
    (hexited : place ≠ .exited) : p.place t ≠ .absent ∧ p.place t ≠ .exited := by
  rw [hplace]
  exact ⟨habsent, hexited⟩

/-- A worker moves in its loops, and leaves the table alone. -/
theorem Inv.moves (h : Inv hashSize p log) {place place' : Place} {connected : Bool}
    {server : Server (Fin n)} (hplace : p.place t = place)
    (hlive : place ≠ .absent ∧ place ≠ .exited) (habsent : place' ≠ .absent)
    (hloops : Loops { p.move t place' connected with server := server, fault := p.fault })
    (hcoupled : server.Coupled) (hshared : server.shared = p.server.shared)
    (hhistory : history es = []) (hdumps : dumps es = []) :
    Inv hashSize { p.move t place' connected with server := server, fault := p.fault }
      (log ++ es) := by
  have hlive' := live_of_place hplace hlive.1 hlive.2
  have hrun := (h.main.live hlive').2.1
  exact h.quiet hloops (h.main.moved (moved_move hlive' habsent)) hcoupled hshared rfl hrun hrun
    hhistory hdumps

/-- Outside of the inner loop a worker has no connection, and it is in no table function. -/
theorem Inv.outside (h : Inv hashSize p log) (hinner : p.place t ≠ .inner)
    (hsession : p.place t ≠ .session) :
    (p.server.workers t).stage = .accepting ∧ p.server.shared.pc t = .idle := by
  have hstage := h.loops.outside t hinner hsession
  refine ⟨hstage, h.coupled.outside t fun op => ?_⟩
  rw [hstage]
  exact Stage.noConfusion

/-- After the signal a worker returns from the test of the outer loop. -/
theorem Inv.exit (h : Inv hashSize p log) (hplace : p.place t = .outer)
    (hshutdown : p.shutdown = true) : Inv hashSize (p.move t .exited false) (log ++ []) := by
  have hstage := (h.outside (t := t) (by rw [hplace]; exact Place.noConfusion)
    (by rw [hplace]; exact Place.noConfusion)).1
  exact h.moves hplace ⟨Place.noConfusion, Place.noConfusion⟩ Place.noConfusion
    (h.loops.move (fun _ _ => rfl) (fun _ _ => hstage) Place.noConfusion Place.noConfusion
      (fun _ => hshutdown) (by decide)) h.coupled rfl rfl rfl

/-- A worker goes from one place outside of the inner loop to another one. It has no connection
there. -/
theorem Inv.around (h : Inv hashSize p log) {place place' : Place} (hplace : p.place t = place)
    (hout : place = .outer ∨ place = .accepting) (hout' : place' = .outer ∨ place' = .accepting) :
    Inv hashSize (p.move t place' false) (log ++ []) := by
  have hfar : ∀ q : Place, q = .outer ∨ q = .accepting →
      q ≠ .absent ∧ q ≠ .exited ∧ q ≠ .inner ∧ q ≠ .session := by
    rintro q (rfl | rfl)
    · exact ⟨Place.noConfusion, Place.noConfusion, Place.noConfusion, Place.noConfusion⟩
    · exact ⟨Place.noConfusion, Place.noConfusion, Place.noConfusion, Place.noConfusion⟩
  obtain ⟨habsent, hexited, hinner, hsession⟩ := hfar place hout
  obtain ⟨habsent', hexited', hinner', hsession'⟩ := hfar place' hout'
  have hstage := (h.outside (t := t) (by rw [hplace]; exact hinner)
    (by rw [hplace]; exact hsession)).1
  exact h.moves hplace ⟨habsent, hexited⟩ habsent'
    (h.loops.move (fun _ _ => rfl) (fun _ _ => hstage) (fun heq => absurd heq hinner')
      (fun heq => absurd heq hsession') (fun heq => absurd heq hexited')
      ⟨fun heq => absurd heq Bool.false_ne_true,
        fun heq => heq.elim (fun hi => absurd hi hinner') fun hs => absurd hs hsession'⟩)
    h.coupled rfl rfl rfl

/-- After the signal a worker leaves the inner loop and closes the connection. -/
theorem Inv.hangUp (h : Inv hashSize p log) (hplace : p.place t = .inner) :
    Inv hashSize
      { p.move t .outer false with
        server := p.server.setWorker t { p.server.workers t with stage := .accepting } }
      (log ++ []) := by
  have hpc : p.server.shared.pc t = .idle := by
    refine h.coupled.outside t fun op => ?_
    rw [h.loops.inner t hplace]
    exact Stage.noConfusion
  have hself : ((p.server.setWorker t
      { p.server.workers t with stage := .accepting }).workers t).stage = .accepting :=
    congrArg Worker.stage (Function.update_self t _ p.server.workers)
  exact h.moves hplace ⟨Place.noConfusion, Place.noConfusion⟩ Place.noConfusion
    (h.loops.move (fun u hu => Function.update_of_ne hu _ _) (fun _ _ => hself)
      Place.noConfusion Place.noConfusion Place.noConfusion (by decide))
    (h.coupled.move (fun u _ => ⟨rfl, id⟩) (Or.inl ⟨fun op => Stage.noConfusion, hpc⟩)) rfl rfl rfl

/-- A worker goes into the body of the inner loop. -/
theorem Inv.enter (h : Inv hashSize p log) (hplace : p.place t = .inner) :
    Inv hashSize (p.move t .session true) (log ++ []) := by
  have hstage := h.loops.inner t hplace
  refine h.moves hplace ⟨Place.noConfusion, Place.noConfusion⟩ Place.noConfusion
    (h.loops.move (fun _ _ => rfl) (fun _ hne => absurd rfl hne) Place.noConfusion (fun _ => ?_)
      Place.noConfusion (by decide)) h.coupled rfl rfl rfl
  rw [hstage]
  exact Stage.noConfusion

/-- `accept` returns a connection. -/
theorem Inv.connect (h : Inv hashSize p log) (hplace : p.place t = .accepting) :
    Inv hashSize
      { p.move t .inner true with
        server := p.server.setWorker t ⟨(p.server.workers t).rbuf, 0, .receiving⟩ }
      (log ++ [.accepted t]) := by
  have hpc := (h.outside (t := t) (by rw [hplace]; exact Place.noConfusion)
    (by rw [hplace]; exact Place.noConfusion)).2
  have hself : ((p.server.setWorker t
      ⟨(p.server.workers t).rbuf, 0, .receiving⟩).workers t).stage = .receiving :=
    congrArg Worker.stage (Function.update_self t _ p.server.workers)
  exact h.moves hplace ⟨Place.noConfusion, Place.noConfusion⟩ Place.noConfusion
    (h.loops.move (fun u hu => Function.update_of_ne hu _ _) (fun hne => absurd rfl hne)
      (fun _ => hself) Place.noConfusion Place.noConfusion (by decide))
    (h.coupled.move (fun u _ => ⟨rfl, id⟩) (Or.inl ⟨fun op => Stage.noConfusion, hpc⟩)) rfl rfl rfl

omit log es in
/-- The workers of a step in a session. -/
theorem workers_of_shape {s s' : Server (Fin n)} {a : ServerAction (Fin n)}
    (hshape : Server.Shape s a s') (u : Fin n) (hu : u ≠ a.tid) : s'.workers u = s.workers u := by
  cases hshape with
  | outside w => exact Function.update_of_ne hu _ _
  | call r w shared => exact Function.update_of_ne hu _ _
  | inside b shared => rfl
  | returned w shared => exact Function.update_of_ne hu _ _

omit log es in
/-- The table of a step in a session. -/
theorem shared_of_shape {s s' : Server (Fin n)} {a : ServerAction (Fin n)}
    (hshape : Server.Shape s a s') :
    s'.shared = s.shared ∧ s.events a = [] ∨
      ∃ b, s.shared.step b = some (s'.shared, s.events a) := by
  cases hshape with
  | outside w hbefore hafter hsent hevents => exact Or.inl ⟨rfl, hevents⟩
  | call r w shared hbefore hafter hstep => exact Or.inr ⟨_, hstep⟩
  | inside b shared hbefore haction hstep => exact Or.inr ⟨_, hstep⟩
  | returned w shared hbefore hafter hstep => exact Or.inr ⟨_, hstep⟩

/-- A worker does a step in its session. The table makes one of its steps or none, and the worker
leaves the inner loop when its connection ends. -/
theorem Inv.session (hcard : n < 2 ^ 32) (h : Inv hashSize p log) {a : ServerAction (Fin n)}
    {server : Server (Fin n)} {sends : List (Fin n × List UInt8)}
    (hplace : p.place a.tid = .session) (hserver : p.server.step a = some (server, sends)) :
    Inv hashSize
      { p.move a.tid (server.workers a.tid).stage.place
          (decide ((server.workers a.tid).stage.place ≠ .outer)) with
        server := server
        fault := p.fault || decide (p.main = .finished) }
      (log ++ ((a.received.map fun m => .received m.1 m.2) ++
        ((p.server.events a).map .table ++ sends.map fun m => .sent m.1 m.2))) := by
  have hcard' : Fintype.card (Fin n) < 2 ^ 32 := by rw [Fintype.card_fin]; exact hcard
  have hlive := live_of_place hplace Place.noConfusion Place.noConfusion
  have hrun := (h.main.live hlive).2.1
  have hshape := Server.shape_of_step hserver
  obtain ⟨hlin, hasleep, hsize, hquiet⟩ := h.running hrun
  obtain ⟨ps, m, hs, -⟩ := hlin.inv
  have hevents := history_serve a.received sends (p.server.events a)
  simp only
  have hplaces : (server.workers a.tid).stage.place ≠ .absent ∧
      (server.workers a.tid).stage.place ≠ .exited := by
    cases (server.workers a.tid).stage with
    | accepting | receiving | serving op | sending wbuf =>
        exact ⟨Place.noConfusion, Place.noConfusion⟩
  have hmoved := @moved_move _ p a.tid (server.workers a.tid).stage.place
    (decide ((server.workers a.tid).stage.place ≠ .outer)) server
    (p.fault || decide (p.main = .finished)) hlive hplaces.1
  constructor
  case loops =>
    refine h.loops.move (workers_of_shape hshape) ?_ ?_ ?_ (fun heq => absurd heq hplaces.2) ?_
    · intro hinner hsession
      cases hstage : (server.workers a.tid).stage with
      | accepting => rfl
      | receiving => rw [hstage] at hinner; exact absurd rfl hinner
      | serving op => rw [hstage] at hsession; exact absurd rfl hsession
      | sending wbuf => rw [hstage] at hsession; exact absurd rfl hsession
    · intro hinner
      cases hstage : (server.workers a.tid).stage with
      | receiving => rfl
      | accepting | serving op | sending wbuf => rw [hstage] at hinner; cases hinner
    · intro hsession heq
      rw [heq] at hsession
      cases hsession
    · cases (server.workers a.tid).stage with
      | accepting => decide
      | receiving => decide
      | serving op => exact ⟨fun _ => Or.inr rfl, fun _ => rfl⟩
      | sending wbuf => exact ⟨fun _ => Or.inr rfl, fun _ => rfl⟩
  case main => exact h.main.moved hmoved
  case coupled => exact h.coupled.step hs hshape
  case fault =>
    show (p.fault || decide (p.main = .finished)) = false
    rw [h.fault, decide_eq_false hrun]
    rfl
  case ended => exact fun hmain => absurd hmain hrun
  case running =>
    refine fun _ => ⟨?_, fun i => ?_, ?_, ?_⟩
    · rw [history_append, hevents.1]
      rcases shared_of_shape hshape with ⟨hsame, hnone⟩ | ⟨b, hb⟩
      · show LinInv server.shared _
        rw [hsame, hnone, List.append_nil]
        exact hlin
      · exact hlin.step hcard' hb
    · rcases shared_of_shape hshape with ⟨hsame, -⟩ | ⟨b, hb⟩
      · show AsleepBlocked (server.shared.locks i)
        rw [hsame]
        exact hasleep i
      · exact Shared.asleepBlocked_step hasleep hb i
    · rcases shared_of_shape hshape with ⟨hsame, -⟩ | ⟨b, hb⟩
      · show server.shared.table.hashSize = hashSize
        rw [hsame]
        exact hsize
      · exact (Shared.hashSize_of_step hb).trans hsize
    · rw [dumps_append, hquiet, hevents.2]
      rfl

/-- Every step of the server keeps the invariant. There is one case for each shape of a step. -/
theorem Inv.step (hcard : n < 2 ^ 32) (h : Inv hashSize p log) {a : ProcessAction n}
    (hstep : p.step a = some (p', es)) : Inv hashSize p' (log ++ es) := by
  cases shape_of_step hstep with
  | sigint =>
      have hloops : Loops { p with shutdown := true } :=
        ⟨h.loops.outside, h.loops.inner, h.loops.session, h.loops.connected, fun _ _ => rfl⟩
      rw [List.append_nil]
      exact ⟨hloops, h.main, h.coupled, h.fault,
        fun hrun => ⟨(h.running hrun).lin, (h.running hrun).asleep, (h.running hrun).size,
          (h.running hrun).quiet⟩,
        fun hmain => ⟨(h.ended hmain).freed, (h.ended hmain).dump⟩⟩
  | create hi hmain => exact h.create hmain hi
  | created hmain => exact h.created hmain
  | join hi hmain hexited => exact h.join hi.2 hmain hexited
  | joined hi hmain => exact h.joined hi hmain
  | close hmain => exact h.close hmain
  | destroy hmain hdestroy =>
      obtain ⟨table, text, hdestroy', hinv⟩ := h.destroy hmain
      rw [hdestroy] at hdestroy'
      cases hdestroy'
      exact hinv
  | undefined hmain hdestroy =>
      obtain ⟨table, text, hdestroy', -⟩ := h.destroy hmain
      rw [hdestroy] at hdestroy'
      cases hdestroy'
  | exit hplace hshutdown => exact h.exit hplace hshutdown
  | goOn hplace => exact h.around hplace (Or.inl rfl) (Or.inr rfl)
  | hangUp hplace => exact h.hangUp hplace
  | enter hplace => exact h.enter hplace
  | connect hplace => exact h.connect hplace
  | timeOut hplace => exact h.around hplace (Or.inr rfl) (Or.inl rfl)
  | session hplace hserver => exact h.session hcard hplace hserver

/-- The invariant holds in every state of every run. -/
theorem Inv.of_run (hcard : n < 2 ^ 32) (hpos : 0 < hashSize) (hle : hashSize ≤ 2147483647)
    {rbufs : Fin n → List UInt8} {acts : List (ProcessAction n)}
    (hrun : run Process.step (Process.init n hashSize rbufs) acts = some (p, log)) :
    Inv hashSize p log :=
  run_induction (I := Inv hashSize) (P := fun _ => True) (Inv.init hpos hle rbufs)
    (fun _ _ _ _ _ hI _ _ hs => hI.step hcard hs) acts (fun _ _ => trivial) p log hrun

end

/-- Behind the joins no worker runs. -/
theorem MainInv.gone (h : p.MainInv)
    (hmain : p.main = .closing ∨ p.main = .destroying ∨ p.main = .finished) (t : Fin n) :
    p.place t = .absent ∨ p.place t = .exited := by
  unfold MainInv at h
  rcases hmain with hmain | hmain | hmain
  · rw [hmain] at h
    exact h.2 t
  · rw [hmain] at h
    exact h.2 t
  · rw [hmain] at h
    exact h.2 t

/-- A worker that does not run has no connection. -/
theorem Loops.closed (h : p.Loops) (hgone : p.place t = .absent ∨ p.place t = .exited) :
    p.connected t = false := by
  rw [← Bool.not_eq_true, h.connected t]
  rcases hgone with hplace | hplace
  · rw [hplace]
    decide
  · rw [hplace]
    decide

/-- No worker has touched a dead node, neither in the run nor at its end. -/
theorem Inv.noFault {hashSize : UInt64} {log : List (Event n)} (h : Inv hashSize p log)
    (t : Fin n) : p.server.shared.pc t ≠ .fault := by
  by_cases hmain : p.main = .finished
  · rw [h.idle (h.main.gone (Or.inr (Or.inr hmain))) t]
    exact Pc.noConfusion
  · obtain ⟨ps, m, hs, -⟩ := (h.running hmain).lin.inv
    exact hs.noFault t

/-- The operations are legal in the order in which they return, also when the table is gone. -/
theorem Inv.legal {hashSize : UInt64} {log : List (Event n)} (h : Inv hashSize p log) :
    ∃ m, Legal Request.Spec (fun _ => none) (completed (history log)) m := by
  by_cases hmain : p.main = .finished
  · obtain ⟨text, m, -, -, hlegal⟩ := (h.ended hmain).dump
    exact ⟨m, hlegal⟩
  · obtain ⟨ps, m, -, hlegal⟩ := (h.running hmain).lin.inv
    exact ⟨m, hlegal⟩

end Process

open Process

section
variable {n : Nat} {hashSize : UInt64} {rbufs : Fin n → List UInt8}
  {acts : List (ProcessAction n)} {p : Process n} {log : List (Event n)}

/-- The server ends after its workers. In every run, whenever the signal comes and whatever fails:

* nothing undefined happens, and no worker touches a node that is not live;
* a worker in `accept`, or with a connection, finds the listening socket open;
* when `main` has joined the workers, all of them have returned and closed their connections, no
  table function is in progress, and no thread is in a lock;
* when `main` returns no node is left, and the signal has come, unless no worker was created. -/
theorem server_ends_safely (hcard : n < 2 ^ 32) (hpos : 0 < hashSize)
    (hle : hashSize ≤ 2147483647)
    (hrun : run Process.step (Process.init n hashSize rbufs) acts = some (p, log)) :
    p.fault = false ∧ (∀ t, p.server.shared.pc t ≠ .fault) ∧
    (∀ t, p.place t = .accepting ∨ p.connected t = true → p.listening = true) ∧
    ((p.main = .closing ∨ p.main = .destroying) → ∀ t,
      (p.place t = .absent ∨ p.place t = .exited) ∧ p.connected t = false ∧
      p.server.shared.pc t = .idle ∧ ∀ i, (p.server.shared.locks i).phase t = .idle) ∧
    (p.main = .finished → (∀ q, p.server.shared.table.nodes q = none) ∧
      (∀ t, p.connected t = false) ∧ (p.shutdown = true ∨ ∀ t, p.place t = .absent)) := by
  have h := Inv.of_run hcard hpos hle hrun
  refine ⟨h.fault, h.noFault, fun t ht => ?_, fun hmain t => ?_, fun hmain => ?_⟩
  · have hlive : p.place t ≠ .absent ∧ p.place t ≠ .exited := by
      rcases ht with hplace | hconnected
      · exact live_of_place hplace Place.noConfusion Place.noConfusion
      · rcases (h.loops.connected t).mp hconnected with hplace | hplace
        · exact live_of_place hplace Place.noConfusion Place.noConfusion
        · exact live_of_place hplace Place.noConfusion Place.noConfusion
    exact (h.main.live hlive).1
  · have hgone := h.main.gone (hmain.imp_right Or.inl)
    have hrunning : p.main ≠ .finished := by
      rcases hmain with hmain | hmain
      · rw [hmain]
        exact MainPc.noConfusion
      · rw [hmain]
        exact MainPc.noConfusion
    obtain ⟨ps, m, hs, -⟩ := (h.running hrunning).lin.inv
    exact ⟨hgone t, h.loops.closed (hgone t), h.idle hgone t,
      fun i => hs.locks_of_idle (h.idle hgone) i t⟩
  · have hgone := h.main.gone (Or.inr (Or.inr hmain))
    refine ⟨(h.ended hmain).freed, fun t => h.loops.closed (hgone t), ?_⟩
    by_cases hexited : ∃ t, p.place t = .exited
    · obtain ⟨t, ht⟩ := hexited
      exact Or.inl (h.loops.exited t ht)
    · exact Or.inr fun t => (hgone t).resolve_right fun ht => hexited ⟨t, ht⟩

/-- The signal comes while one of two workers creates a key. -/
def createAndEnd : List (ProcessAction 2) :=
  [.main true, .main true, .main true, .check 0, .accept 0 true, .check 0,
    .serve (.recv 0 (.data (ascii ['C', 'R', 'E', 'A', 'T', 'E', ' ', 'k', ' ', 'v'] ++ [lf]))),
    .serve (.lock 0 .enter), .sigint, .serve (.work 0 ⟨0, true, true⟩),
    .serve (.work 0 ⟨0, true, true⟩), .serve (.work 0 ⟨8, true, true⟩),
    .serve (.work 0 ⟨0, true, true⟩), .serve (.release 0), .serve (.send 0 [.sent 10]),
    .check 0, .check 0, .main true, .check 1, .main true, .main true, .main true, .main true]

/-- The server ends in this run, and no node is left. -/
theorem server_ends_safely_create :
    ∃ (p : Process 2) (log : List (Event 2)),
      run Process.step (Process.init 2 1 fun _ => List.replicate (bufSize + 1) 0)
        createAndEnd = some (p, log) ∧
      p.main = .finished ∧ ∀ q, p.server.shared.table.nodes q = none := by
  have hmap : (run Process.step (Process.init 2 1 fun _ => List.replicate (bufSize + 1) 0)
      createAndEnd).map (fun r => r.1.main) = some .finished := by
    decide +kernel
  obtain ⟨⟨p, log⟩, hrun, hmain⟩ := Option.map_eq_some_iff.mp hmap
  have hends := server_ends_safely (by decide) (by decide) (by decide) hrun
  exact ⟨p, log, hrun, hmain, (hends.2.2.2.2 hmain).1⟩

/-- The last dump tells what the server has done. In every run, the table functions of all workers
have a linearization, and nothing is dumped before `main` returns. Then there is one dump, and it
shows every key that the linearization leaves in the map once, with its value. -/
theorem server_dumps (hcard : n < 2 ^ 32) (hpos : 0 < hashSize) (hle : hashSize ≤ 2147483647)
    (hrun : run Process.step (Process.init n hashSize rbufs) acts = some (p, log)) :
    ∃ order m, Linearizes Request.Spec (fun _ => none) (history log) order m ∧
      (p.main ≠ .finished → dumps log = []) ∧
      (p.main = .finished → ∃ text, dumps log = [text] ∧ Shows hashSize m text) := by
  have h := Inv.of_run hcard hpos hle hrun
  by_cases hmain : p.main = .finished
  · obtain ⟨text, m, hdumps, hshows, hlegal⟩ := (h.ended hmain).dump
    exact ⟨_, m, linearizes_completed hlegal, fun hne => absurd hmain hne,
      fun _ => ⟨text, hdumps, hshows⟩⟩
  · obtain ⟨ps, m, -, hlegal⟩ := (h.running hmain).lin.inv
    exact ⟨_, m, linearizes_completed hlegal, fun _ => (h.running hmain).quiet,
      fun heq => absurd heq hmain⟩

/-- The dump of a key that was created while the signal came. -/
theorem server_dumps_create :
    ∃ (p : Process 2) (log : List (Event 2)) (m : CString → Option CString) (text : List UInt8),
      run Process.step (Process.init 2 1 fun _ => List.replicate (bufSize + 1) 0)
        createAndEnd = some (p, log) ∧
      dumps log = [text] ∧ Shows 1 m text := by
  have hmap : (run Process.step (Process.init 2 1 fun _ => List.replicate (bufSize + 1) 0)
      createAndEnd).map (fun r => r.1.main) = some .finished := by
    decide +kernel
  obtain ⟨⟨p, log⟩, hrun, hmain⟩ := Option.map_eq_some_iff.mp hmap
  obtain ⟨order, m, -, -, hdump⟩ := server_dumps (by decide) (by decide) (by decide) hrun
  obtain ⟨text, hdumps, hshows⟩ := hdump hmain
  exact ⟨p, log, m, text, hrun, hdumps, hshows⟩

end

end SysProg.Kvs
