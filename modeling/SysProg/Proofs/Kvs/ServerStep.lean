import SysProg.Kvs.Main
import SysProg.Proofs.Kvs.Server
import SysProg.Proofs.Kvs.SharedMoves

/-!
# `SysProg.Proofs.Kvs.ServerStep`: what one step of a worker does

`Server.Shape` sorts the steps of a worker by the step of the table in them, and
`Server.shape_of_step` is the one lemma that opens `Server.step`. The events of a step are those of
its step of the table.

`Server.Coupled` ties the stage of a worker to its place in the table.
-/

set_option autoImplicit false

namespace SysProg.Kvs

open SysProg.Lib

namespace Server

variable {Tid : Type} [DecidableEq Tid] {s s' : Server Tid} {a : ServerAction Tid}

/-- A step of a worker, by the step of the table in it. -/
inductive Shape (s : Server Tid) (a : ServerAction Tid) : Server Tid → Prop where
  /-- The worker is in no table function, before and after. From `send_all` it goes on to `recv` or
  to the end of the session. -/
  | outside (w : Worker) (hbefore : ∀ op, (s.workers a.tid).stage ≠ .serving op)
      (hafter : ∀ op, w.stage ≠ .serving op)
      (hsent : ∀ wbuf, (s.workers a.tid).stage = .sending wbuf →
        w.stage = .receiving ∨ w.stage = .accepting)
      (hevents : s.events a = []) : Shape s a (s.setWorker a.tid w)
  /-- The worker calls a table function. -/
  | call (r : Request) (w : Worker) (shared : Shared Tid)
      (hbefore : (s.workers a.tid).stage = .receiving) (hafter : ∃ op, w.stage = .serving op)
      (hstep : s.shared.step (.call a.tid r) = some (shared, s.events a)) :
      Shape s a { s.setWorker a.tid w with shared := shared }
  /-- The worker goes on in its table function. -/
  | inside (b : SharedAction Tid) (shared : Shared Tid)
      (hbefore : ∃ op, (s.workers a.tid).stage = .serving op)
      (haction : (∃ move, a = .lock a.tid move ∧ b = .lock a.tid move) ∨
        ∃ mem, a = .work a.tid mem ∧ b = .work a.tid mem)
      (hstep : s.shared.step b = some (shared, s.events a)) :
      Shape s a { s with shared := shared }
  /-- The table function returns. -/
  | returned (w : Worker) (shared : Shared Tid)
      (hbefore : ∃ op, (s.workers a.tid).stage = .serving op)
      (hafter : ∃ wbuf, w.stage = .sending wbuf)
      (hstep : s.shared.step (.release a.tid) = some (shared, s.events a)) :
      Shape s a { s.setWorker a.tid w with shared := shared }

/-- A step in the table moves the shared part of the server only. -/
theorem table_eq_some {b : SharedAction Tid} (h : s.table b = some s') :
    ∃ shared es, s.shared.step b = some (shared, es) ∧ s' = { s with shared := shared } := by
  obtain ⟨⟨shared, es⟩, hshared, rfl⟩ := Option.map_eq_some_iff.mp h
  exact ⟨shared, es, hshared, rfl⟩

/-- The steps of `recv`. The worker stays outside of the table, or it calls one of its functions. -/
theorem shape_of_recv {t : Tid} {r : Recv} (hstage : (s.workers t).stage = .receiving)
    (hrecv : s.recv t r = some s') : Shape s (.recv t r) s' := by
  have hbefore : ∀ op, (s.workers t).stage ≠ .serving op := by
    intro op
    rw [hstage]
    exact Stage.noConfusion
  have hsent : ∀ {w : Worker} wbuf, (s.workers t).stage = .sending wbuf →
      w.stage = .receiving ∨ w.stage = .accepting := by
    intro w wbuf heq
    rw [hstage] at heq
    cases heq
  cases r with
  | retry =>
      cases hrecv
      have hsame : s.setWorker t (s.workers t) = s := by
        unfold Server.setWorker
        rw [Function.update_eq_self]
      have hshape : Shape s (.recv t .retry) (s.setWorker t (s.workers t)) :=
        .outside _ hbefore hbefore hsent rfl
      rw [hsame] at hshape
      exact hshape
  | failed =>
      cases hrecv
      exact .outside _ hbefore (fun op => Stage.noConfusion) hsent rfl
  | closed =>
      cases hrecv
      exact .outside _ hbefore (fun op => Stage.noConfusion) hsent rfl
  | data bytes =>
      simp only [Server.recv] at hrecv
      split at hrecv
      case isTrue => cases hrecv
      case isFalse =>
        unfold Server.serve at hrecv
        simp only at hrecv
        split at hrecv
        case h_1 hcmd =>
          cases hrecv
          exact .outside _ hbefore (fun op => Stage.noConfusion) hsent (if_pos (Or.inl hcmd))
        case h_2 hcmd =>
          cases hrecv
          exact .outside _ hbefore (fun op => Stage.noConfusion) hsent (if_pos (Or.inr hcmd))
        case h_3 hincomplete hinvalid =>
          have hcmd := not_or.mpr ⟨hincomplete, hinvalid⟩
          split at hrecv
          case h_1 hop =>
            cases hrecv
            refine .outside _ hbefore (fun op => Stage.noConfusion) hsent ?_
            simp only [Server.events, if_neg hcmd, hop]
          case h_2 op hop =>
            obtain ⟨shared, es, hstep, rfl⟩ := table_eq_some hrecv
            have hevents : s.events (.recv t (.data bytes)) = es := by
              obtain ⟨-, hes, -⟩ := Shared.step_call hstep
              simp only [hes, Server.events, if_neg hcmd, hop]
            rw [← hevents] at hstep
            exact .call _ _ shared hstage ⟨op, rfl⟩ hstep

/-- Every step of a worker has one of the four shapes. It is outside of the table, a call, inside of
the table, or the return. -/
theorem shape_of_step {es : List (Tid × List UInt8)} (hstep : s.step a = some (s', es)) :
    Shape s a s' := by
  cases a with
  | accept t =>
      simp only [Server.step] at hstep
      split at hstep
      case h_2 => cases hstep
      case h_1 hstage =>
        cases hstep
        have hne : ∀ op, (s.workers t).stage ≠ .serving op := by
          intro op
          rw [hstage]
          exact Stage.noConfusion
        refine .outside _ hne (fun op => Stage.noConfusion) (fun wbuf heq => ?_) rfl
        exact Or.inl rfl
  | recv t r =>
      simp only [Server.step] at hstep
      split at hstep
      case h_2 => cases hstep
      case h_1 hstage => exact shape_of_recv hstage (silent_eq_some hstep).1
  | lock t move =>
      simp only [Server.step] at hstep
      split at hstep
      case h_2 => cases hstep
      case h_1 op hstage =>
        obtain ⟨shared, es, hshared, rfl⟩ := table_eq_some (silent_eq_some hstep).1
        obtain ⟨rfl, -⟩ := Shared.step_lock hshared
        exact .inside _ shared ⟨op, hstage⟩ (Or.inl ⟨move, rfl, rfl⟩) hshared
  | work t mem =>
      simp only [Server.step] at hstep
      split at hstep
      case h_2 => cases hstep
      case h_1 op hstage =>
        obtain ⟨shared, es, hshared, rfl⟩ := table_eq_some (silent_eq_some hstep).1
        obtain ⟨rfl, -⟩ := Shared.step_work hshared
        exact .inside _ shared ⟨op, hstage⟩ (Or.inr ⟨mem, rfl, rfl⟩) hshared
  | release t =>
      simp only [Server.step] at hstep
      split at hstep
      case h_2 => cases hstep
      case h_1 op hstage =>
        obtain ⟨hfinish, -⟩ := silent_eq_some hstep
        unfold Server.finish at hfinish
        split at hfinish
        case h_2 => cases hfinish
        case h_1 r o hpc =>
          obtain ⟨shared, es, hshared, rfl⟩ := table_eq_some hfinish
          have hevents : s.events (.release t) = es := by
            obtain ⟨r', o', l, les, hpc', rfl, -, -⟩ := Shared.step_release hshared
            have hpc'' : s.shared.pc t = .unlocking r' o' := hpc'
            simp only [Server.events, hpc'']
          refine .returned _ shared ⟨op, hstage⟩ ⟨_, rfl⟩ ?_
          rw [hevents]
          exact hshared
  | send t sends =>
      simp only [Server.step] at hstep
      split at hstep
      case h_2 => cases hstep
      case h_1 wbuf hstage =>
        obtain ⟨⟨chunks, ok⟩, -, heq⟩ := Option.map_eq_some_iff.mp hstep
        cases heq
        have hne : ∀ op, (s.workers t).stage ≠ .serving op := by
          intro op
          rw [hstage]
          exact Stage.noConfusion
        cases ok with
        | true => exact .outside _ hne (fun op => Stage.noConfusion) (fun _ _ => Or.inl rfl) rfl
        | false => exact .outside _ hne (fun op => Stage.noConfusion) (fun _ _ => Or.inr rfl) rfl

/-- A step is a return, a call out of `recv`, or neither. -/
theorem events_of_shape (hshape : Shape s a s') :
    s.events a = [] ∨ (∃ o, s.events a = [.returned a.tid o]) ∨
      (∃ r, s.events a = [.invoked a.tid r]) ∧ (s.workers a.tid).stage = .receiving := by
  cases hshape with
  | outside w hbefore hafter hsent hnone => exact Or.inl hnone
  | call r w shared hbefore hafter hcall =>
      exact Or.inr (Or.inr ⟨⟨r, (Shared.step_call hcall).2.1⟩, hbefore⟩)
  | inside b shared hbefore haction hinside =>
      left
      rcases haction with ⟨move, -, rfl⟩ | ⟨mem, -, rfl⟩
      · exact (Shared.step_lock hinside).1
      · exact (Shared.step_work hinside).1
  | returned w shared hbefore hafter hreturn =>
      obtain ⟨r, o, l, les, -, hes, -⟩ := Shared.step_release hreturn
      exact Or.inr (Or.inl ⟨o, hes⟩)

/-- Only `send_all` sends, and it sends what `send` takes. The chunks are in the order of the calls.
-/
theorem sends_of_step {sends : List (Tid × List UInt8)} (hstep : s.step a = some (s', sends)) :
    sends = [] ∨ ∃ answers wbuf chunks ok, a = .send a.tid answers ∧
      (s.workers a.tid).stage = .sending wbuf ∧ sendAll answers wbuf = some (chunks, ok) ∧
      sends = (chunks.map fun chunk => (a.tid, chunk)) ∧
      s' = s.setWorker a.tid ⟨(s.workers a.tid).rbuf, if ok then 0 else (s.workers a.tid).off,
        if ok then .receiving else .accepting⟩ := by
  cases a with
  | send t answers =>
      right
      simp only [Server.step] at hstep
      split at hstep
      case h_2 => cases hstep
      case h_1 wbuf hstage =>
        obtain ⟨⟨chunks, ok⟩, hall, heq⟩ := Option.map_eq_some_iff.mp hstep
        cases heq
        exact ⟨answers, wbuf, chunks, ok, rfl, hstage, hall, rfl, rfl⟩
  | accept t =>
      left
      simp only [Server.step] at hstep
      split at hstep
      case h_2 => cases hstep
      case h_1 =>
        cases hstep
        rfl
  | recv t r | lock t move | work t mem | release t =>
      left
      simp only [Server.step] at hstep
      split at hstep
      case h_2 => cases hstep
      case h_1 => exact (silent_eq_some hstep).2

omit [DecidableEq Tid] in
/-- A worker has a request in the table exactly in the stage `serving`. -/
structure Coupled (s : Server Tid) : Prop where
  outside : ∀ t, (∀ op, (s.workers t).stage ≠ .serving op) → s.shared.pc t = .idle
  inside : ∀ t op, (s.workers t).stage = .serving op → ∃ r, (s.shared.pc t).request = some r

namespace Coupled

omit [DecidableEq Tid] in
/-- At the start no worker has a request, and the table has none of them. -/
theorem init (n : UInt64) (rbufs : Tid → List UInt8) : (Server.init n rbufs).Coupled where
  outside _ _ := rfl
  inside _ _ hstage := by cases hstage

/-- One worker moves, in its loops and in the table. The other workers and their places in the table
stay. -/
theorem move {t : Tid} {w : Worker} {shared : Shared Tid} (h : s.Coupled)
    (hothers : ∀ u, u ≠ t → (shared.pc u).request = (s.shared.pc u).request ∧
      (s.shared.pc u = .idle → shared.pc u = .idle))
    (hself : (∀ op, w.stage ≠ .serving op) ∧ shared.pc t = .idle ∨
      (∃ op, w.stage = .serving op) ∧ ∃ r, (shared.pc t).request = some r) :
    Coupled { s.setWorker t w with shared := shared } where
  outside u hu := by
    by_cases hut : u = t
    · subst hut
      rcases hself with ⟨-, hpc⟩ | ⟨⟨op, hop⟩, -⟩
      · exact hpc
      · exact absurd (by simpa [Server.setWorker] using hop) (hu op)
    · refine (hothers u hut).2 (h.outside u fun op => ?_)
      simpa [Server.setWorker, hut] using hu op
  inside u op hu := by
    by_cases hut : u = t
    · subst hut
      rcases hself with ⟨hne, -⟩ | ⟨-, hr⟩
      · exact absurd (by simpa [Server.setWorker] using hu) (hne op)
      · exact hr
    · obtain ⟨r, hr⟩ := h.inside u op (by simpa [Server.setWorker, hut] using hu)
      exact ⟨r, (hothers u hut).1.trans hr⟩

/-- A step of a worker keeps the coupling. A worker is in a table function exactly while its stage
is `serving`. -/
theorem step [Fintype Tid] {ps : Int → List Ptr} {m : CString → Option CString} (h : s.Coupled)
    (hinv : SharedInv s.shared ps m) (hshape : Shape s a s') : s'.Coupled := by
  have hsetPc : ∀ {shared : Shared Tid} {pc : Pc}, shared.pc = s.shared.pc →
      ∀ u, u ≠ a.tid → ((shared.setPc a.tid pc).pc u).request = (s.shared.pc u).request ∧
        (s.shared.pc u = .idle → (shared.setPc a.tid pc).pc u = .idle) := by
    intro shared pc hsame u hu
    rw [Shared.setPc_pc_ne _ _ _ hu, hsame]
    exact ⟨rfl, id⟩
  cases hshape with
  | outside w hbefore hafter =>
      exact h.move (fun u _ => ⟨rfl, id⟩) (Or.inl ⟨hafter, h.outside _ hbefore⟩)
  | call r w shared hbefore hafter hstep =>
      obtain ⟨-, -, l, les, -, rfl⟩ := Shared.step_call hstep
      exact h.move (hsetPc rfl) (Or.inr ⟨hafter, r, by rw [Shared.setPc_pc_self]; rfl⟩)
  | returned w shared hbefore hafter hstep =>
      obtain ⟨r, o, l, les, -, -, -, rfl⟩ := Shared.step_release hstep
      obtain ⟨wbuf, hw⟩ := hafter
      refine h.move (hsetPc rfl) (Or.inl ⟨fun op => ?_, Shared.setPc_pc_self _ _ _⟩)
      rw [hw]
      exact Stage.noConfusion
  | inside b shared hbefore haction hstep =>
      obtain ⟨op, hstage⟩ := hbefore
      -- The workers stay where they are.
      have hsame : ({ s with shared := shared } : Server Tid)
          = { s.setWorker a.tid (s.workers a.tid) with shared := shared } := by
        unfold Server.setWorker
        rw [Function.update_eq_self]
      have hpcs : (∀ u, (shared.pc u).request = (s.shared.pc u).request) ∧
          ∀ u, u ≠ a.tid → shared.pc u = s.shared.pc u := by
        rcases haction with ⟨move, -, rfl⟩ | ⟨mem, -, rfl⟩
        · obtain ⟨-, r, l, les, -, -, rfl⟩ := Shared.step_lock hstep
          exact ⟨fun _ => rfl, fun _ _ => rfl⟩
        · have hwork := hstep
          simp only [Shared.step] at hwork
          split at hwork
          · cases hwork
          · obtain ⟨-, hfit, hcases⟩ := Shared.step_work hstep
            refine ⟨(hinv.work hfit (silent_eq_some hwork).1).2, fun u hu => ?_⟩
            rcases hcases with ⟨r, -, -, rfl⟩ | ⟨r, table, pc, -, -, rfl⟩
            · exact Shared.setPc_pc_ne _ _ _ hu
            · exact Shared.setPc_pc_ne _ _ _ hu
      rw [hsame]
      refine h.move (fun u hu => ⟨hpcs.1 u, fun hidle => (hpcs.2 u hu).trans hidle⟩)
        (Or.inr ⟨⟨op, hstage⟩, ?_⟩)
      obtain ⟨r, hr⟩ := h.inside a.tid op hstage
      exact ⟨r, (hpcs.1 a.tid).trans hr⟩

end Coupled

end Server

end SysProg.Kvs
