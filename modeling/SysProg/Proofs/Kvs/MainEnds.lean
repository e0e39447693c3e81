import SysProg.Proofs.Kvs.Main
import SysProg.Proofs.Kvs.SharedProgress

/-!
# `SysProg.Proofs.Kvs.MainEnds`: after the signal the server comes to its end

`SO_RCVTIMEO` makes `accept` and `recv` return, and each of the two loops of a worker tests
`g_shutdown`. So after `SIGINT` every worker finishes the request that it is in, if there is one,
and leaves its loops, and `main` joins it and ends the table.

`send_all` is the exception. It goes around `send` until everything is sent or `send` fails, it
does not test `g_shutdown`, and `send` has no timeout. A client that does not read keeps its worker
there. In the model a whole `send_all` is one step, with the answers of `send`. So the workers that
never get out of it are a parameter `stuck` here: their `send_all` is not among the steps.

* `Process.exists_onward`: until `main` has returned, some thread has a step. A worker in a table
  function is as in `SysProg.Proofs.Kvs.SharedProgress`.
* `Process.Closer`: every step brings `main` or a worker closer to its return, or is a step of the
  table on the way to a return.
* `Process.Sending.step`: nothing but its `send_all` moves a worker that is in it.

`server_terminates` is the result. `server_responds` bounds what the workers take on after the
signal.
-/

set_option autoImplicit false

namespace SysProg.Kvs

open SysProg.Lib

/-- A step of `main` or of a worker, but no wake-up without a broadcast. -/
def ProcessAction.Onward {n : Nat} : ProcessAction n → Prop
  | .sigint | .serve (.lock _ .wake) => False
  | _ => True

/-- A step as in `Onward`, and no `send_all` of a worker in `stuck` returns. -/
def ProcessAction.OnwardBut {n : Nat} (stuck : Fin n → Prop) (a : ProcessAction n) : Prop :=
  a.Onward ∧ ∀ t sends, stuck t → a ≠ .serve (.send t sends)

/-- The worker is in `send_all`. -/
def Process.Sending {n : Nat} (p : Process n) (t : Fin n) : Prop :=
  p.place t = .session ∧ ∃ wbuf, (p.server.workers t).stage = .sending wbuf

instance {n : Nat} (p : Process n) (t : Fin n) : Decidable (p.Sending t) :=
  match hstage : (p.server.workers t).stage with
  | .sending wbuf =>
      decidable_of_iff (p.place t = .session) ⟨fun h => ⟨h, wbuf, hstage⟩, fun h => h.1⟩
  | .accepting | .receiving | .serving _ =>
      isFalse fun ⟨_, _, h⟩ => Stage.noConfusion (hstage.symm.trans h)

/-- How far a worker is from its return after the signal, without the steps in the table. In `recv`
there may be a request, which leads into the table. -/
def Place.stages (stage : Stage) : Place → Nat
  | .exited => 0
  | .outer => 1
  | .absent | .inner => 2
  | .accepting => 3
  | .session =>
      match stage with
      | .receiving => 11
      | _ => 3

/-- How far `main` is from its return. -/
def MainPc.stages (n : Nat) : MainPc → Nat
  | .finished => 0
  | .destroying => 1
  | .closing => 2
  | .joining i _ => 3 + (n - i)
  | .creating i => 4 + n + (n - i)

namespace Process

variable {n : Nat} {p p' : Process n} {t : Fin n} {hashSize : UInt64}
  {log es : List (Event n)}

/-! ### The server is never stuck -/

/-- A worker in a table function is in a session. -/
theorem Inv.session_of_busy (h : Inv hashSize p log) (hpc : p.server.shared.pc t ≠ .idle) :
    p.place t = .session ∧ ∃ op, (p.server.workers t).stage = .serving op := by
  have hserving : ∃ op, (p.server.workers t).stage = .serving op := by
    by_contra hnone
    exact hpc (h.coupled.outside t fun op hop => hnone ⟨op, hop⟩)
  obtain ⟨op, hop⟩ := hserving
  refine ⟨?_, op, hop⟩
  by_contra hsession
  by_cases hinner : p.place t = .inner
  · have hstage := h.loops.inner t hinner
    rw [hop] at hstage
    cases hstage
  · have hstage := h.loops.outside t hinner hsession
    rw [hop] at hstage
    cases hstage

/-- A step of the table is a step of its worker. The worker is in its session then, so the server
can take the step. -/
theorem Inv.serve_isSome (h : Inv hashSize p log) {a : SharedAction (Fin n)} (honward : a.Onward)
    (hsome : (p.server.shared.step a).isSome) :
    ∃ b : ProcessAction n, b.Onward ∧ (p.step b).isSome := by
  obtain ⟨⟨shared, hes⟩, hstep⟩ := Option.isSome_iff_exists.mp hsome
  have hserve : ∀ {b : ServerAction (Fin n)}, p.place b.tid = .session →
      (p.server.step b).isSome → (p.step (.serve b)).isSome := by
    intro b hplace hserver
    simp only [Process.step, Process.serve, hplace, Option.isSome_map]
    exact hserver
  cases a with
  | call t r => exact honward.elim
  | lock t move =>
      obtain ⟨-, r, l, les, hpc, -, -⟩ := Shared.step_lock hstep
      obtain ⟨hplace, op, hop⟩ := h.session_of_busy (t := t) (by rw [hpc]; exact Pc.noConfusion)
      refine ⟨.serve (.lock t move), ?_, hserve hplace ?_⟩
      · cases move with
        | enter | resume => trivial
        | wake => exact honward.elim
      · simp only [Server.step, hop, Option.isSome_map, Server.table]
        exact hsome
  | work t mem =>
      have hbusy : p.server.shared.pc t ≠ .idle := by
        intro hidle
        obtain ⟨-, -, ⟨r, hpc, -, -⟩ | ⟨r, table, pc, hpc, -, -⟩⟩ := Shared.step_work hstep
        · rw [hidle] at hpc
          cases hpc
        · rw [hidle] at hpc
          cases hpc
      obtain ⟨hplace, op, hop⟩ := h.session_of_busy hbusy
      refine ⟨.serve (.work t mem), trivial, hserve hplace ?_⟩
      simp only [Server.step, hop, Option.isSome_map, Server.table]
      exact hsome
  | release t =>
      obtain ⟨r, o, l, les, hpc, -, -, -⟩ := Shared.step_release hstep
      obtain ⟨hplace, op, hop⟩ := h.session_of_busy (t := t) (by rw [hpc]; exact Pc.noConfusion)
      refine ⟨.serve (.release t), trivial, hserve hplace ?_⟩
      simp only [Server.step, hop, Option.isSome_map, Server.finish, hpc, Server.table]
      exact hsome

/-- While a worker runs, some worker has a step. It is this one, unless it sleeps in a lock, and
then another one is awake in that lock. -/
theorem Inv.exists_onward_of_live (h : Inv hashSize p log)
    (hlive : p.place t ≠ .absent ∧ p.place t ≠ .exited) :
    ∃ a : ProcessAction n, a.Onward ∧ (p.step a).isSome := by
  cases hplace : p.place t with
  | absent => exact absurd hplace hlive.1
  | exited => exact absurd hplace hlive.2
  | outer => exact ⟨.check t, trivial, by simp only [Process.step, Process.check, hplace]; rfl⟩
  | inner =>
      refine ⟨.check t, trivial, ?_⟩
      simp only [Process.step, Process.check, hplace]
      split
      · rfl
      · rfl
  | accepting =>
      -- The timeout of `accept`.
      refine ⟨.accept t false, trivial, ?_⟩
      simp only [Process.step, Process.accept, hplace, Bool.false_eq_true, false_and, if_false]
      rfl
  | session =>
      cases hstage : (p.server.workers t).stage with
      | accepting => exact absurd hstage (h.loops.session t hplace)
      | receiving =>
          refine ⟨.serve (.recv t .closed), trivial, ?_⟩
          simp only [Process.step, Process.serve, ServerAction.tid, hplace, Server.step, hstage,
            Server.recv]
          rfl
      | sending wbuf =>
          refine ⟨.serve (.send t [.failed]), trivial, ?_⟩
          simp only [Process.step, Process.serve, ServerAction.tid, hplace, Server.step, hstage,
            Option.isSome_map]
          cases wbuf with
          | nil => rfl
          | cons b wbuf => rfl
      | serving op =>
          have hrun := h.running (h.main.live hlive).2.1
          obtain ⟨ps, m, hs, -⟩ := hrun.lin.inv
          have hbusy : p.server.shared.pc t ≠ .idle := by
            intro hidle
            obtain ⟨r, hr⟩ := h.coupled.inside t op hstage
            rw [hidle] at hr
            cases hr
          obtain ⟨a, honward, hsome⟩ := hs.exists_onward hrun.asleep hbusy
          exact h.serve_isSome honward hsome

/-- Until `main` has returned, some thread has a step. `main` itself has one unless it joins a
worker that runs. -/
theorem Inv.exists_onward (h : Inv hashSize p log) (hmain : p.main ≠ .finished) :
    ∃ a : ProcessAction n, a.Onward ∧ (p.step a).isSome := by
  have hinv := h.main
  unfold MainInv at hinv
  cases hpc : p.main with
  | creating i =>
      refine ⟨.main false, trivial, ?_⟩
      simp only [Process.step, Process.mainStep, hpc]
      split
      · rfl
      · rfl
  | joining i created =>
      by_cases hi : i < created ∧ i < n
      · by_cases hexited : p.place ⟨i, hi.2⟩ = .exited
        · refine ⟨.main true, trivial, ?_⟩
          simp only [Process.step, Process.mainStep, hpc, dif_pos hi, if_pos hexited]
          rfl
        · -- `pthread_join` waits for a worker that runs.
          rw [hpc] at hinv
          refine h.exists_onward_of_live (t := ⟨i, hi.2⟩) ⟨fun habsent => ?_, hexited⟩
          exact absurd ((hinv.2.2.1 ⟨i, hi.2⟩).mp habsent) (Nat.not_le_of_lt hi.1)
      · refine ⟨.main true, trivial, ?_⟩
        simp only [Process.step, Process.mainStep, hpc, dif_neg hi]
        rfl
  | closing => exact ⟨.main true, trivial, by simp only [Process.step, Process.mainStep, hpc]; rfl⟩
  | destroying =>
      refine ⟨.main true, trivial, ?_⟩
      simp only [Process.step, Process.mainStep, hpc]
      split
      · rfl
      · rfl
  | finished => exact absurd hpc hmain

/-! ### Every step leads closer to the end -/

/-- How far a worker is from its return, without the steps in the table. -/
def stages (p : Process n) (t : Fin n) : Nat := (p.place t).stages (p.server.workers t).stage

/-- How far `main` and the workers are from their returns, without the steps in the table. -/
def ahead (p : Process n) : Nat := p.main.stages n + ∑ t, p.stages t

/-- `main` or a worker comes closer to its return, or a worker goes on in the table. -/
def Closer (p p' : Process n) : Prop :=
  p'.ahead + ∑ t, p'.server.shared.remaining t < p.ahead + ∑ t, p.server.shared.remaining t ∨
    p'.ahead = p.ahead ∧ ∃ b es, b.Onward ∧ p.server.shared.step b = some (p'.server.shared, es)

/-- `main` comes closer to its return, and no worker moves away from its own. -/
theorem Closer.of_main (hshared : p'.server.shared = p.server.shared)
    (hmain : p'.main.stages n < p.main.stages n)
    (hstages : ∑ t, p'.stages t ≤ ∑ t, p.stages t) : Closer p p' := by
  left
  unfold ahead
  rw [hshared]
  omega

/-- One worker comes closer to its return, the table counted in. -/
theorem Closer.of_worker (hmain : p'.main = p.main)
    (hothers : ∀ u, u ≠ t → p'.stages u = p.stages u ∧
      p'.server.shared.remaining u = p.server.shared.remaining u)
    (hself : p'.stages t + p'.server.shared.remaining t
      < p.stages t + p.server.shared.remaining t) : Closer p p' := by
  left
  have hlt : ∑ u, (p'.stages u + p'.server.shared.remaining u)
      < ∑ u, (p.stages u + p.server.shared.remaining u) := by
    refine sum_lt_of_one (t := t) (fun u hu => ?_) hself
    rw [(hothers u hu).1, (hothers u hu).2]
  rw [Finset.sum_add_distrib, Finset.sum_add_distrib] at hlt
  unfold ahead
  rw [hmain]
  omega

/-- A worker that goes on has at most the rest of a request before it. -/
theorem stages_place_le (stage : Stage) : stage.place.stages stage ≤ 3 := by
  cases stage with
  | accepting => exact (by decide : 1 ≤ 3)
  | receiving => exact (by decide : 2 ≤ 3)
  | serving op | sending wbuf => exact Nat.le_refl 3

/-- A worker that moves leaves the others where they are. -/
theorem stages_move (place : Place) (connected fault : Bool) {server : Server (Fin n)}
    (hworkers : ∀ u, u ≠ t → server.workers u = p.server.workers u) :
    (∀ u, u ≠ t → stages { p.move t place connected with server := server, fault := fault } u
      = p.stages u) ∧
    stages { p.move t place connected with server := server, fault := fault } t
      = place.stages (server.workers t).stage := by
  constructor
  · intro u hu
    show (Function.update p.place t place u).stages _ = _
    rw [Function.update_of_ne hu, hworkers u hu]
    rfl
  · show (Function.update p.place t place t).stages _ = _
    rw [Function.update_self]

/-- A worker that moves outside of the table comes closer to its return. -/
theorem Closer.of_move {place : Place} {connected fault : Bool} {server : Server (Fin n)}
    (hworkers : ∀ u, u ≠ t → server.workers u = p.server.workers u)
    (hshared : server.shared = p.server.shared)
    (hlt : place.stages (server.workers t).stage < p.stages t) :
    Closer p { p.move t place connected with server := server, fault := fault } := by
  have hstages := stages_move place connected fault hworkers
  refine Closer.of_worker (t := t) rfl (fun u hu => ⟨hstages.1 u hu, ?_⟩) ?_
  · show server.shared.remaining u = _
    rw [hshared]
  · rw [hstages.2]
    show _ + server.shared.remaining t < _
    rw [hshared]
    exact Nat.add_lt_add_right hlt _

/-- The stages of a worker at a place. -/
theorem stages_of_place {place : Place} (hplace : p.place t = place) :
    p.stages t = place.stages (p.server.workers t).stage := by
  unfold stages
  rw [hplace]

/-- `main` creates a worker. The way of the worker is longer than before, and the way of `main` is
shorter by as much. -/
theorem closer_of_create {i : Nat} (hinv : p.MainInv) (hi : i < n) (hmain : p.main = .creating i) :
    Closer p { p.move ⟨i, hi⟩ .outer false with main := .creating (i + 1) } := by
  have habsent := hinv.absent hmain hi
  have hstages := stages_move (t := ⟨i, hi⟩) .outer false p.fault
    (fun u _ => Eq.refl (p.server.workers u))
  refine Closer.of_main rfl ?_ (sum_lt_of_one (t := ⟨i, hi⟩) hstages.1 ?_).le
  · rw [hmain]
    show 4 + n + (n - (i + 1)) < 4 + n + (n - i)
    omega
  · show (Function.update p.place ⟨i, hi⟩ .outer ⟨i, hi⟩).stages _ < _
    rw [Function.update_self, stages_of_place habsent]
    exact Nat.one_lt_two

/-- The steps of a session. Out of `recv` and out of `send_all` the worker is closer to its return,
and in the table it goes on as `SharedProgress` says. -/
theorem closer_of_session {a : ServerAction (Fin n)} {server : Server (Fin n)}
    {sends : List (Fin n × List UInt8)} (honward : (ProcessAction.serve a).Onward)
    (hsession : ∀ t, p.place t = .session → (p.server.workers t).stage ≠ .accepting)
    (hplace : p.place a.tid = .session) (hserver : p.server.step a = some (server, sends)) :
    Closer p
      { p.move a.tid (server.workers a.tid).stage.place
          (decide ((server.workers a.tid).stage.place ≠ .outer)) with
        server := server
        fault := p.fault || decide (p.main = .finished) } := by
  have hshape := Server.shape_of_step hserver
  have hworkers := workers_of_shape hshape
  have hstages := stages_move (server.workers a.tid).stage.place
    (decide ((server.workers a.tid).stage.place ≠ .outer))
    (p.fault || decide (p.main = .finished)) hworkers
  have hbefore : p.stages a.tid
      = Place.session.stages (p.server.workers a.tid).stage := stages_of_place hplace
  have hahead : (server.workers a.tid).stage.place.stages (server.workers a.tid).stage
      = Place.session.stages (p.server.workers a.tid).stage →
      ahead { p.move a.tid (server.workers a.tid).stage.place
          (decide ((server.workers a.tid).stage.place ≠ .outer)) with
        server := server, fault := p.fault || decide (p.main = .finished) } = p.ahead := by
    intro heq
    have hsum := sum_eq_of_one (t := a.tid) hstages.1 (by rw [hstages.2, hbefore, heq])
    show p.main.stages n + _ = p.main.stages n + _
    rw [hsum]
  cases hshape with
  | outside w hstage hafter hsent =>
      have hself : (p.server.setWorker a.tid w).workers a.tid = w := Function.update_self _ _ _
      refine Closer.of_move hworkers rfl ?_
      rw [hbefore, hself]
      cases hpre : (p.server.workers a.tid).stage with
      | accepting => exact absurd hpre (hsession a.tid hplace)
      | serving op => exact absurd hpre (hstage op)
      | receiving => exact Nat.lt_of_le_of_lt (stages_place_le w.stage) (by decide : 3 < 11)
      | sending wbuf =>
          rcases hsent wbuf hpre with hnext | hnext
          · rw [hnext]
            exact (by decide : 2 < 3)
          · rw [hnext]
            exact (by decide : 1 < 3)
  | call r w shared hstage hafter hcall =>
      obtain ⟨hzero, hseven⟩ := Shared.remaining_of_call hcall
      refine Closer.of_worker (t := a.tid) rfl
        (fun u hu => ⟨hstages.1 u hu, (Shared.beside_of_step hcall).remaining hu⟩) ?_
      rw [hstages.2, hbefore, hstage, hzero]
      show _ + shared.remaining a.tid < 11 + 0
      rw [hseven]
      exact Nat.lt_of_le_of_lt (Nat.add_le_add_right (stages_place_le _) 7)
        (by decide : 3 + 7 < 11)
  | inside b shared hstage haction hinside =>
      obtain ⟨op, hop⟩ := hstage
      refine Or.inr ⟨hahead ?_, b, _, ?_, hinside⟩
      · rw [hop]
        rfl
      · rcases haction with ⟨move, ha, rfl⟩ | ⟨mem, -, rfl⟩
        · cases move with
          | enter | resume => trivial
          | wake => rw [ha] at honward; exact honward.elim
        · trivial
  | returned w shared hstage hafter hreturn =>
      obtain ⟨op, hop⟩ := hstage
      obtain ⟨wbuf, hw⟩ := hafter
      have hself : (p.server.setWorker a.tid w).workers a.tid = w := Function.update_self _ _ _
      refine Or.inr ⟨hahead ?_, .release a.tid, _, trivial, hreturn⟩
      show ((p.server.setWorker a.tid w).workers a.tid).stage.place.stages _ = _
      rw [hself, hw, hop]
      rfl

/-- `g_shutdown` is never reset. -/
theorem shutdown_of_step {a : ProcessAction n} (hshutdown : p.shutdown = true)
    (hstep : p.step a = some (p', es)) : p'.shutdown = true := by
  cases shape_of_step hstep with
  | sigint => rfl
  | create | created | join | joined | close | destroy | undefined => exact hshutdown
  | exit | goOn | hangUp | enter | connect | timeOut | session => exact hshutdown

/-- After the signal every step of `main` and of the workers leads closer to the end. -/
theorem Inv.closer (h : Inv hashSize p log) (hshutdown : p.shutdown = true) {a : ProcessAction n}
    (honward : a.Onward) (hstep : p.step a = some (p', es)) :
    p'.main = .finished ∨ Closer p p' := by
  cases shape_of_step hstep with
  | sigint => exact honward.elim
  | create hi hmain => exact Or.inr (closer_of_create h.main hi hmain)
  | @created i ok hmain =>
      refine Or.inr (Closer.of_main rfl ?_ (Nat.le_refl _))
      rw [hmain]
      show 3 + (n - 0) < 4 + n + (n - i)
      omega
  | @join i created ok hi hmain =>
      refine Or.inr (Closer.of_main rfl ?_ (Nat.le_refl _))
      rw [hmain]
      show 3 + (n - (i + 1)) < 3 + (n - i)
      omega
  | @joined i created ok hi hmain =>
      refine Or.inr (Closer.of_main rfl ?_ (Nat.le_refl _))
      rw [hmain]
      show 2 < 3 + (n - i)
      omega
  | close hmain =>
      refine Or.inr (Closer.of_main rfl ?_ (Nat.le_refl _))
      rw [hmain]
      exact Nat.one_lt_two
  | destroy | undefined => exact Or.inl rfl
  | exit hplace =>
      refine Or.inr (Closer.of_move (fun u _ => rfl) rfl ?_)
      rw [stages_of_place hplace]
      exact Nat.zero_lt_one
  | hangUp hplace =>
      refine Or.inr (Closer.of_move (fun u hu => Function.update_of_ne hu _ _) rfl ?_)
      rw [stages_of_place hplace]
      exact Nat.one_lt_two
  | goOn hplace hrun | enter hplace hrun =>
      rw [hshutdown] at hrun
      cases hrun
  | connect hplace =>
      refine Or.inr (Closer.of_move (fun u hu => Function.update_of_ne hu _ _) rfl ?_)
      rw [stages_of_place hplace]
      exact Nat.lt_succ_self 2
  | timeOut hplace =>
      refine Or.inr (Closer.of_move (fun u _ => rfl) rfl ?_)
      rw [stages_of_place hplace]
      exact (by decide : 1 < 3)
  | session hplace hserver =>
      exact Or.inr (closer_of_session honward h.loops.session hplace hserver)

/-! ### Workers that stay in `send_all` -/

/-- A `send_all` that returns is one of a worker that is in it. -/
theorem sending_of_send {sends : List Send}
    (hsome : (p.step (.serve (.send t sends))).isSome) : p.Sending t := by
  simp only [step, serve, ServerAction.tid] at hsome
  split at hsome
  case h_2 => cases hsome
  case h_1 hplace =>
    simp only [Server.step, Option.isSome_map] at hsome
    split at hsome
    case h_2 => cases hsome
    case h_1 wbuf hstage => exact ⟨hplace, wbuf, hstage⟩

/-- In `send_all` a worker does nothing else. -/
theorem Sending.serve (h : p.Sending t) {a : ServerAction (Fin n)} (htid : a.tid = t)
    (hstep : p.serve a = some (p', es)) : ∃ sends, a = .send t sends := by
  obtain ⟨hplace, wbuf, hstage⟩ := h
  subst htid
  unfold Process.serve at hstep
  rw [hplace] at hstep
  obtain ⟨r, hserver, -⟩ := Option.map_eq_some_iff.mp hstep
  cases a with
  | send t sends => exact ⟨sends, rfl⟩
  | accept t | recv t r | lock t move | work t mem | release t =>
      simp only [ServerAction.tid] at hstage
      simp only [Server.step, hstage] at hserver
      cases hserver

/-- A worker stays in `send_all` until its `send_all` returns, whatever the others do. No other
action is one of this worker. -/
theorem Sending.step (h : p.Sending t) (hmain : p.MainInv) {a : ProcessAction n}
    (ha : ∀ sends, a ≠ .serve (.send t sends)) (hstep : p.step a = some (p', es)) :
    p'.Sending t := by
  obtain ⟨hplace, wbuf, hstage⟩ := id h
  -- The step is one of another worker.
  have hmove : ∀ {u : Fin n} {place : Place} {connected : Bool} {server : Server (Fin n)}
      (fault : Bool), u ≠ t → (∀ v, v ≠ u → server.workers v = p.server.workers v) →
      Sending { p.move u place connected with server := server, fault := fault } t := by
    intro u place connected server fault hut hworkers
    refine ⟨(Function.update_of_ne (Ne.symm hut) _ _).trans hplace, wbuf, ?_⟩
    show (server.workers t).stage = _
    rw [hworkers t (Ne.symm hut), hstage]
  have hother : ∀ {u : Fin n} {place : Place}, p.place u = place → place ≠ .session → u ≠ t := by
    rintro u place hu hne rfl
    exact hne (hu.symm.trans hplace)
  cases shape_of_step hstep with
  | sigint | created | join | joined | close | destroy | undefined => exact h
  | @create i hi hpc =>
      -- The thread that is created is a new one.
      exact hmove p.fault (hother (hmain.absent hpc hi) Place.noConfusion) fun v _ => rfl
  | exit hu | goOn hu | enter hu | timeOut hu =>
      exact hmove p.fault (hother hu Place.noConfusion) fun v _ => rfl
  | hangUp hu | connect hu =>
      exact hmove p.fault (hother hu Place.noConfusion) fun v hv => Function.update_of_ne hv _ _
  | @session a server sends hu hserver =>
      refine hmove _ (fun htid => ?_) (workers_of_shape (Server.shape_of_step hserver))
      obtain ⟨sends, rfl⟩ := h.serve htid hstep
      exact ha sends rfl

/-! ### What the workers take on after the signal -/

/-- `1` for a worker in `accept`, and else `0`. -/
def inAccept (t : Fin n) (p : Process n) : Nat := if p.place t = .accepting then 1 else 0

/-- `1` for a worker in `recv`, and else `0`. -/
def inRecv (t : Fin n) (p : Process n) : Nat :=
  match p.place t, (p.server.workers t).stage with
  | .session, .receiving => 1
  | _, _ => 0

/-- The event is a connection that the worker `t` accepts. -/
def accepts (t : Fin n) : Event n → Bool
  | .accepted u => u = t
  | _ => false

/-- The event is a call of a table function by the worker `t`. -/
def invokes (t : Fin n) : Event n → Bool
  | .table (.invoked u _) => u = t
  | _ => false

/-- What the worker `t` takes on in a step, and what it can still take on after it, it could take on
before it. -/
def Pays (p p' : Process n) (es : List (Event n)) (t : Fin n) : Prop :=
  es.countP (accepts t) + inAccept t p' ≤ inAccept t p ∧
    es.countP (invokes t) + inRecv t p' ≤ inRecv t p

/-- A step that moves no worker. -/
theorem Pays.same (hplace : p'.place = p.place) (hworkers : p'.server.workers = p.server.workers)
    (haccepts : es.countP (accepts t) = 0) (hinvokes : es.countP (invokes t) = 0) :
    Pays p p' es t := by
  unfold Pays inAccept inRecv
  rw [haccepts, hinvokes, hplace, hworkers, Nat.zero_add, Nat.zero_add]
  exact ⟨Nat.le_refl _, Nat.le_refl _⟩

/-- A worker moves to a place where it takes on nothing. What it has taken on in the step it could
take on at its old place. -/
theorem Pays.move {u : Fin n} {place : Place} {connected : Bool} {server : Server (Fin n)}
    (fault : Bool) (hworkers : ∀ v, v ≠ u → server.workers v = p.server.workers v)
    (haccept : place ≠ .accepting)
    (hrecv : place = .session → (server.workers u).stage ≠ .receiving)
    (hothers : t ≠ u → es.countP (accepts t) = 0 ∧ es.countP (invokes t) = 0)
    (hself : t = u → es.countP (accepts t) ≤ inAccept t p ∧
      es.countP (invokes t) ≤ inRecv t p) :
    Pays p { p.move u place connected with server := server, fault := fault } es t := by
  by_cases htu : t = u
  · subst htu
    have hzero : inAccept t { p.move t place connected with server := server, fault := fault } = 0 ∧
        inRecv t { p.move t place connected with server := server, fault := fault } = 0 := by
      constructor
      · show (if Function.update p.place t place t = .accepting then 1 else 0) = 0
        rw [Function.update_self, if_neg haccept]
      · unfold inRecv
        split
        · rename_i hsession hreceiving
          have hplace : Function.update p.place t place t = .session := hsession
          rw [Function.update_self] at hplace
          exact absurd hreceiving (hrecv hplace)
        · rfl
    unfold Pays
    rw [hzero.1, hzero.2]
    exact hself rfl
  · have hsame : Function.update p.place u place t = p.place t := Function.update_of_ne htu _ _
    unfold Pays
    rw [(hothers htu).1, (hothers htu).2, Nat.zero_add, Nat.zero_add]
    constructor
    · show (if Function.update p.place u place t = .accepting then 1 else 0) ≤ _
      rw [hsame]
      exact Nat.le_refl _
    · show (match Function.update p.place u place t, (server.workers t).stage with
        | .session, .receiving => 1
        | _, _ => 0) ≤ _
      rw [hsame, hworkers t htu]
      exact Nat.le_refl _

/-- What a step in a session counts. It accepts no connection, and its calls are those of the table.
-/
theorem counts_of_serve (received sends : List (Fin n × List UInt8))
    (hs : List (HistoryEvent (Fin n) Request Outcome)) :
    ((received.map fun m => Event.received m.1 m.2) ++
      (hs.map Event.table ++ sends.map fun m => Event.sent m.1 m.2)).countP (accepts t) = 0 ∧
    ((received.map fun m => Event.received m.1 m.2) ++
      (hs.map Event.table ++ sends.map fun m => Event.sent m.1 m.2)).countP (invokes t)
        = (hs.map Event.table).countP (invokes t) := by
  have hreceived : ∀ count : Event n → Bool, (∀ u bytes, count (.received u bytes) = false) →
      (received.map fun m => Event.received m.1 m.2).countP count = 0 := by
    intro count hcount
    rw [List.countP_eq_zero]
    intro e he
    obtain ⟨m, -, rfl⟩ := List.mem_map.mp he
    rw [hcount]
    exact Bool.false_ne_true
  have hsends : ∀ count : Event n → Bool, (∀ u chunk, count (.sent u chunk) = false) →
      (sends.map fun m => Event.sent m.1 m.2).countP count = 0 := by
    intro count hcount
    rw [List.countP_eq_zero]
    intro e he
    obtain ⟨m, -, rfl⟩ := List.mem_map.mp he
    rw [hcount]
    exact Bool.false_ne_true
  simp only [List.countP_append, hreceived (accepts t) fun _ _ => rfl,
    hreceived (invokes t) fun _ _ => rfl, hsends (accepts t) fun _ _ => rfl,
    hsends (invokes t) fun _ _ => rfl, Nat.zero_add, Nat.add_zero, and_true]
  rw [List.countP_eq_zero]
  intro e he
  obtain ⟨e, -, rfl⟩ := List.mem_map.mp he
  exact Bool.false_ne_true

/-- A step in a session calls a table function when it comes out of `recv`. -/
theorem pays_of_session {a : ServerAction (Fin n)} {server : Server (Fin n)}
    {sends : List (Fin n × List UInt8)} (hplace : p.place a.tid = .session)
    (hserver : p.server.step a = some (server, sends)) :
    Pays p
      { p.move a.tid (server.workers a.tid).stage.place
          (decide ((server.workers a.tid).stage.place ≠ .outer)) with
        server := server
        fault := p.fault || decide (p.main = .finished) }
      ((a.received.map fun m => .received m.1 m.2) ++
        ((p.server.events a).map .table ++ sends.map fun m => .sent m.1 m.2)) t := by
  have hshape := Server.shape_of_step hserver
  have hcounts := counts_of_serve (t := t) a.received sends (p.server.events a)
  -- Only a call counts, and it comes out of `recv`.
  have hevents := Server.events_of_shape hshape
  refine Pays.move _ (workers_of_shape hshape) ?_ ?_ ?_ ?_
  · cases (server.workers a.tid).stage with
    | accepting | receiving | serving op | sending wbuf => exact Place.noConfusion
  · intro hsession hreceiving
    rw [hreceiving] at hsession
    cases hsession
  · intro htid
    refine ⟨hcounts.1, hcounts.2.trans ?_⟩
    rcases hevents with hnone | ⟨o, hreturned⟩ | ⟨⟨r, hinvoked⟩, -⟩
    · rw [hnone]
      rfl
    · rw [hreturned]
      rfl
    · rw [hinvoked, List.countP_eq_zero]
      intro e he
      rw [List.mem_singleton.mp he]
      show ¬ decide (a.tid = t) = true
      rw [decide_eq_true_eq]
      exact Ne.symm htid
  · rintro rfl
    refine ⟨hcounts.1.le.trans (Nat.zero_le _), hcounts.2.le.trans ?_⟩
    rcases hevents with hnone | ⟨o, hreturned⟩ | ⟨⟨r, hinvoked⟩, hreceiving⟩
    · rw [hnone]
      exact Nat.zero_le _
    · rw [hreturned]
      exact Nat.zero_le _
    · have hone : inRecv a.tid p = 1 := by
        unfold inRecv
        rw [hplace, hreceiving]
      rw [hone, hinvoked]
      exact List.countP_le_length

/-- After the signal every step pays. The tests of `g_shutdown` lead out of the loops then, so no
worker gets back to `accept` or `recv`. -/
theorem pays_of_step {a : ProcessAction n} (hshutdown : p.shutdown = true)
    (hstep : p.step a = some (p', es)) : Pays p p' es t := by
  cases shape_of_step hstep with
  | sigint | created | join | joined | close | destroy | undefined =>
      exact Pays.same rfl rfl rfl rfl
  | create | exit | timeOut =>
      exact Pays.move p.fault (fun _ _ => rfl) Place.noConfusion Place.noConfusion
        (fun _ => ⟨rfl, rfl⟩) fun _ => ⟨Nat.zero_le _, Nat.zero_le _⟩
  | hangUp =>
      exact Pays.move p.fault (fun v hv => Function.update_of_ne hv _ _) Place.noConfusion
        Place.noConfusion (fun _ => ⟨rfl, rfl⟩) fun _ => ⟨Nat.zero_le _, Nat.zero_le _⟩
  | goOn hplace hrun | enter hplace hrun =>
      rw [hshutdown] at hrun
      cases hrun
  | @connect u ok hplace =>
      refine Pays.move p.fault (fun v hv => Function.update_of_ne hv _ _) Place.noConfusion
        Place.noConfusion (fun htu => ⟨?_, rfl⟩) fun htu => ⟨?_, Nat.zero_le _⟩
      · rw [List.countP_eq_zero]
        intro e he
        rw [List.mem_singleton.mp he]
        show ¬ decide (u = t) = true
        rw [decide_eq_true_eq]
        exact Ne.symm htu
      · subst htu
        unfold inAccept
        rw [if_pos hplace]
        exact List.countP_le_length
  | session hplace hserver => exact pays_of_session hplace hserver

end Process

open Process

section
variable {n : Nat} {hashSize : UInt64} {rbufs : Fin n → List UInt8}
  {acts : List (ProcessAction n)} {p p' : Process n} {log : List (Event n)}

/-- After `SIGINT` the server comes to its end, as far as `send_all` lets it. From every state that
is reached with the signal, every run goes on until `main` has returned or one of the workers in
`stuck` is in `send_all`, as long as nobody wakes up in a lock without a broadcast. So `main`
returns when every `send_all` does. A worker that stays in `send_all` keeps `main` from its return,
whatever the other threads do. -/
theorem server_terminates (stuck : Fin n → Prop) (hcard : n < 2 ^ 32) (hpos : 0 < hashSize)
    (hle : hashSize ≤ 2147483647) (hsigint : p.shutdown = true)
    (hrun : run Process.step (Process.init n hashSize rbufs) acts = some (p, log)) :
    Inevitable Process.step (ProcessAction.OnwardBut stuck)
        (fun p => p.main = .finished ∨ ∃ t, stuck t ∧ p.Sending t) p ∧
      ∀ t acts' p' log', p.Sending t → (∀ sends, .serve (.send t sends) ∉ acts') →
        run Process.step p acts' = some (p', log') → p'.Sending t ∧ p'.main ≠ .finished := by
  have hinv := Inv.of_run hcard hpos hle hrun
  refine ⟨?_, fun t acts' p' log' hsending hnone hrun' => ?_⟩
  · by_cases hmain : p.main = .finished
    · exact .now (Or.inl hmain)
    · obtain ⟨ps, m, hs, -⟩ := (hinv.running hmain).lin.inv
      obtain ⟨x, hx⟩ := Shared.Rank.exists hs p.ahead
      refine inevitable_of_rank (I := fun x p => p.server.shared.Rank p.ahead x ∧
        p.shutdown = true ∧ p.main ≠ .finished ∧ ∃ log, Inv hashSize p log) wellFounded_lt ?_
        ⟨hx, hsigint, hmain, log, hinv⟩
      intro x p ⟨hx, hshutdown, hmain, log, hinv⟩
      by_cases hstuck : ∃ t, stuck t ∧ p.Sending t
      · exact Or.inl (Or.inr hstuck)
      refine Or.inr ⟨?_, fun a p' es honward hstep => ?_⟩
      · -- The step that there is, is no `send_all` of a worker in `stuck`.
        obtain ⟨a, honward, hsome⟩ := hinv.exists_onward hmain
        refine ⟨a, ⟨honward, fun t sends ht heq => hstuck ⟨t, ht, ?_⟩⟩, hsome⟩
        subst heq
        exact sending_of_send hsome
      · have hinv' := hinv.step hcard hstep
        by_cases hmain' : p'.main = .finished
        · exact Or.inl (Or.inl hmain')
        · obtain ⟨ps, m, hs', -⟩ := (hinv'.running hmain').lin.inv
          have hlower : ∃ y, y < x ∧ p'.server.shared.Rank p'.ahead y := by
            rcases (hinv.closer hshutdown honward.1 hstep).resolve_left hmain' with
              hlt | ⟨hsame, b, es', hb, hshared⟩
            · exact hx.lower hs' hlt
            · rw [hsame]
              exact hx.step hs' hb hshared
          obtain ⟨y, hy, hrank⟩ := hlower
          exact Or.inr ⟨y, hy, hrank, shutdown_of_step hshutdown hstep, hmain', _, hinv'⟩
  · -- The invariant of the run, with the worker in `send_all`.
    have hkept : p'.Sending t ∧ ∃ log, Inv hashSize p' log :=
      run_induction_of_steps
        (I := fun p _ => p.Sending t ∧ ∃ log, Inv hashSize p log)
        (P := fun _ a => ∀ sends, a ≠ .serve (.send t sends)) ⟨hsending, log, hinv⟩
        (fun q _ a q' es ⟨hq, log, hinv⟩ ha hstep =>
          ⟨hq.step hinv.main ha hstep, _, hinv.step hcard hstep⟩) acts'
        (fun k q a _ ha sends heq => hnone sends (heq ▸ List.mem_of_getElem? ha)) p' log' hrun'
    obtain ⟨hsending', log'', hinv'⟩ := hkept
    refine ⟨hsending', (hinv'.main.live (t := t) ?_).2.1⟩
    rw [hsending'.1]
    exact ⟨Place.noConfusion, Place.noConfusion⟩

/-- The signal comes while one worker is in `accept`, and another one holds a lock that a third one
sleeps in. -/
def busyAtSignal : List (ProcessAction 3) :=
  [.main true, .main true, .main true, .main true, .check 0, .accept 0 true, .check 0,
    .serve (.recv 0 (.data (ascii ['C', 'R', 'E', 'A', 'T', 'E', ' ', 'k', ' ', 'v'] ++ [lf]))),
    .serve (.lock 0 .enter), .check 1, .accept 1 true, .check 1,
    .serve (.recv 1 (.data (ascii ['R', 'E', 'A', 'D', ' ', 'k'] ++ [lf]))),
    .serve (.lock 1 .enter), .check 2, .sigint]

/-- From there the first worker comes to its `send_all`. -/
def toSend : List (ProcessAction 3) :=
  [.serve (.work 0 ⟨0, true, true⟩), .serve (.work 0 ⟨0, true, true⟩),
    .serve (.work 0 ⟨8, true, true⟩), .serve (.work 0 ⟨0, true, true⟩), .serve (.release 0)]

/-- The two other workers finish what they are in and return. -/
def othersReturn : List (ProcessAction 3) :=
  [.serve (.lock 1 .resume), .serve (.work 1 ⟨0, true, true⟩), .serve (.work 1 ⟨0, true, true⟩),
    .serve (.work 1 ⟨0, true, true⟩), .serve (.release 1), .serve (.send 1 [.sent 2]), .check 1,
    .check 1, .accept 2 false, .check 2]

/-- When every `send_all` returns, some run brings `main` to its return. When the client of the
first worker does not read, the two others return and `main` waits for the first one. -/
theorem server_terminates_busy :
    ∃ (p : Process 3) (log : List (Event 3)),
      run Process.step (Process.init 3 1 fun _ => List.replicate (bufSize + 1) 0)
        (busyAtSignal ++ toSend) = some (p, log) ∧ p.Sending 0 ∧
      (∃ as p' es, (∀ a ∈ as, a.Onward) ∧ run Process.step p as = some (p', es) ∧
        p'.main = .finished) ∧
      ∃ p' es, run Process.step p othersReturn = some (p', es) ∧
        p'.place 1 = .exited ∧ p'.place 2 = .exited ∧ p'.Sending 0 ∧ p'.main ≠ .finished := by
  have hmap : ((run Process.step (Process.init 3 1 fun _ => List.replicate (bufSize + 1) 0)
      (busyAtSignal ++ toSend)).bind fun r => (run Process.step r.1 othersReturn).map fun q =>
        (r.1.shutdown, decide (r.1.Sending 0), q.1.place 1, q.1.place 2))
      = some (true, true, .exited, .exited) := by
    decide +kernel
  obtain ⟨⟨p, log⟩, hrun, hmap⟩ := Option.bind_eq_some_iff.mp hmap
  obtain ⟨⟨p', es⟩, hothers, heq⟩ := Option.map_eq_some_iff.mp hmap
  simp only [Prod.mk.injEq, decide_eq_true_eq] at heq
  obtain ⟨hsigint, hsending, hone, htwo⟩ := heq
  have hnobody := server_terminates (fun _ => False) (by decide) (by decide) (by decide) hsigint
    hrun
  obtain ⟨as, q, es', honward, hrest, hgoal⟩ := hnobody.1.exists_run
  -- No other step is a `send_all` of the first worker.
  have hnone : ∀ sends, ProcessAction.serve (.send 0 sends) ∉ othersReturn := by
    intro sends hmem
    simp [othersReturn] at hmem
  obtain ⟨hstays, hwaits⟩ := hnobody.2 0 othersReturn p' es hsending hnone hothers
  exact ⟨p, log, hrun, hsending, ⟨as, q, es', fun a ha => (honward a ha).1, hrest,
    hgoal.resolve_right fun ⟨_, h, _⟩ => h⟩, p', es, hothers, hone, htwo, hstays, hwaits⟩

/-- What the workers take on after `SIGINT`. In every run from there, a worker accepts a connection
only if it was in `accept`, and one at most. It calls a table function only if it was in `recv`, and
one at most. So no request of a connection that is accepted after the signal is served. -/
theorem server_responds (hsigint : p.shutdown = true)
    (hrun : run Process.step p acts = some (p', log)) (t : Fin n) :
    log.countP (accepts t) ≤ inAccept t p ∧ log.countP (invokes t) ≤ inRecv t p := by
  have hstep : ∀ (p : Process n) a p' es, p.shutdown = true → p.step a = some (p', es) →
      p'.shutdown = true ∧ Pays p p' es t := fun p a p' es hshutdown hs =>
    ⟨shutdown_of_step hshutdown hs, pays_of_step hshutdown hs⟩
  have haccepts := run_potential (I := fun p => p.shutdown = true) (accepts t) (inAccept t)
    (fun p a p' es h hs => ⟨(hstep p a p' es h hs).1, (hstep p a p' es h hs).2.1⟩) hsigint hrun
  have hinvokes := run_potential (I := fun p => p.shutdown = true) (invokes t) (inRecv t)
    (fun p a p' es h hs => ⟨(hstep p a p' es h hs).1, (hstep p a p' es h hs).2.2⟩) hsigint hrun
  exact ⟨(Nat.le_add_right _ _).trans haccepts, (Nat.le_add_right _ _).trans hinvokes⟩

/-- A connection that comes after the signal is accepted and closed. The worker was in `accept` when
the signal came, so this is the one connection that it may take on. -/
theorem server_responds_accept :
    ∃ (p p' : Process 3) (before log : List (Event 3)),
      run Process.step (Process.init 3 1 fun _ => List.replicate (bufSize + 1) 0)
        busyAtSignal = some (p, before) ∧
      run Process.step p [.accept 2 true, .check 2, .check 2] = some (p', log) ∧
      log.countP (accepts 2) = inAccept 2 p ∧ log.countP (invokes 2) ≤ inRecv 2 p := by
  have hmap : ((run Process.step (Process.init 3 1 fun _ => List.replicate (bufSize + 1) 0)
      busyAtSignal).bind fun r => (run Process.step r.1 [.accept 2 true, .check 2, .check 2]).map
        fun q => (r.1.shutdown, q.2.countP (accepts 2))) = some (true, 1) := by
    decide +kernel
  obtain ⟨⟨p, before⟩, hrun, hmap⟩ := Option.bind_eq_some_iff.mp hmap
  obtain ⟨⟨p', log⟩, hrest, heq⟩ := Option.map_eq_some_iff.mp hmap
  obtain ⟨hsigint, hone⟩ := Prod.mk.inj heq
  have hresponds := server_responds hsigint hrest 2
  have hle : inAccept 2 p ≤ 1 := by
    unfold inAccept
    split
    · exact Nat.le_refl 1
    · exact Nat.zero_le 1
  exact ⟨p, p', before, log, hrun, hrest, Nat.le_antisymm hresponds.1 (hone ▸ hle), hresponds.2⟩

end

end SysProg.Kvs
