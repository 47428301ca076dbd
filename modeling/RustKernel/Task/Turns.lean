import RustKernel.Task.Thread

/-!
# The turns of the kernel threads

What holds over all runs of `spawn`, `yield_now`, `reap` and `exit` in which the main thread does not exit.
-/

namespace RustKernel.Threads

open Lib
open List (map_map mem_append mem_append_left mem_of_getElem? mem_singleton append_assoc mem_map filter_sublist
  mem_cons)
open Scheduler (queue_eq map_modify_of_eq map_set_of_eq order_of_cut mem_order)

/-! ### The invariant -/

variable {s s' : System} {e : Event} {tr : List (System × Event)} {before behind pre post : List Thread} {t next : Thread}
  {a b k n : ℕ}

def Alive (k : ℕ) (s : System) : Prop := ∃ t ∈ s.sched.threads, t.serial = k ∧ t.state ≠ .finished

structure Sound (s : System) : Prop where
  current : ∃ t, s.current? = some t ∧ t.state = if s.phase = .exiting then .finished else .running
  others : ∀ i t, i ≠ s.sched.current → s.sched.threads[i]? = some t → t.state ≠ .running
  nodup : (s.sched.threads.map Thread.serial).Nodup
  fresh : ∀ t ∈ s.sched.threads, t.serial < s.nextSerial
  main : Alive 0 s
  calm : s.phase ≠ .panicked

def Thread.mark (t : Thread) : ℕ × Bool := (t.serial, t.alive)

theorem alive_iff : Alive k s ↔ (k, true) ∈ s.sched.threads.map Thread.mark := by simp [Alive, Thread.mark, Thread.alive]

theorem serials_of_marks {l l' : List Thread} (h : l'.map Thread.mark = l.map Thread.mark) :
    l'.map Thread.serial = l.map Thread.serial := by
  have hfst := congrArg (List.map Prod.fst) h
  rwa [map_map, map_map] at hfst

theorem queue_nodup (h : Sound s) : s.sched.queue.Nodup := by
  rw [queue_eq, List.nodup_rotate]
  exact h.nodup

theorem Sound.alive_of_serial (h : Sound s) (hk : Alive k s)
    (ht : t ∈ s.sched.threads) (hs : t.serial = k) : t.state ≠ .finished := by
  obtain ⟨u, hu, hus, halive⟩ := hk
  have htu : t = u := List.inj_on_of_nodup_map h.nodup ht hu (hs.trans hus.symm)
  rwa [htu]

theorem Sound.cut (h : Sound s) :
    ∃ before t behind, s.sched.threads = before ++ t :: behind ∧ s.sched.current = before.length ∧ s.current? = some t ∧
    t.state = (if s.phase = .exiting then .finished else .running) ∧ ∀ u ∈ before ++ behind, u.state ≠ .running := by
  obtain ⟨t, ht, hstate⟩ := h.current
  obtain ⟨hlt, hget⟩ := List.getElem?_eq_some_iff.mp ht
  have hcut : s.sched.threads = s.sched.threads.take s.sched.current ++ t :: s.sched.threads.drop (s.sched.current + 1) := by
    rw [← hget, ← List.drop_eq_getElem_cons hlt, List.take_append_drop]
  refine ⟨_, t, _, hcut, (List.length_take_of_le hlt.le).symm, ht, hstate, fun u hu => ?_⟩
  rcases mem_append.mp hu with hu | hu
  · obtain ⟨i, hi, rfl⟩ := List.getElem_of_mem hu
    rw [List.length_take] at hi
    refine h.others i _ (by omega) ?_
    rw [List.getElem_take, List.getElem?_eq_getElem]
  · obtain ⟨i, hi, rfl⟩ := List.getElem_of_mem hu
    refine h.others (s.sched.current + 1 + i) _ (by omega) ?_
    rw [List.getElem_drop, List.getElem?_eq_getElem]

theorem others_of_cut {P : Thread → Prop} (h : ∀ u ∈ before ++ behind, P u) {i : ℕ} {u : Thread} (hi : i ≠ before.length)
    (hu : (before ++ t :: behind)[i]? = some u) : P u := by
  rcases Nat.lt_or_gt_of_ne hi with hlt | hgt
  · rw [List.getElem?_append_left hlt] at hu
    exact h u (mem_append_left _ (mem_of_getElem? hu))
  · obtain ⟨j, rfl⟩ : ∃ j, i = before.length + (j + 1) := ⟨i - before.length - 1, by omega⟩
    rw [List.getElem?_append_right (by omega), Nat.add_sub_cancel_left] at hu
    exact h u (List.mem_append_right _ (mem_of_getElem? hu))

theorem Sound.of_cut (hthreads : s.sched.threads = before ++ t :: behind) (hcur : s.sched.current = before.length)
    (hstate : t.state = if s.phase = .exiting then .finished else .running)
    (hothers : ∀ u ∈ before ++ behind, u.state ≠ .running) (hnodup : (s.sched.threads.map Thread.serial).Nodup)
    (hfresh : ∀ u ∈ s.sched.threads, u.serial < s.nextSerial) (hmain : Alive 0 s) (hcalm : s.phase ≠ .panicked) : Sound s where
  current := ⟨t, by rw [System.current?, hthreads, hcur]; simp, hstate⟩
  others _ _ hi hu := others_of_cut hothers (hcur ▸ hi) (hthreads ▸ hu)
  nodup := hnodup
  fresh := hfresh
  main := hmain
  calm := hcalm

theorem sound_initAsMain : Sound System.boot.initAsMain where
  current := ⟨_, rfl, rfl⟩
  others i t hi ht := by
    obtain ⟨hlt, -⟩ := List.getElem?_eq_some_iff.mp ht
    exact absurd (Nat.lt_one_iff.mp hlt) hi
  nodup := List.nodup_singleton _
  fresh t ht := by
    rw [mem_singleton.mp ht]
    exact Nat.one_pos
  main := ⟨_, mem_singleton.mpr rfl, rfl, by simp⟩
  calm := by decide

theorem spawn_threads (h : Sound s) (name : String) (entry rsp : ℕ) : (s.spawn name entry rsp).sched =
    { s.sched with threads := s.sched.threads ++ [{ serial := s.nextSerial, name, state := .runnable, rsp }] } := by
  obtain ⟨before, t, behind, hthreads, -⟩ := h.cut
  have hlen : (s.sched.threads ++ [({ serial := s.nextSerial, name, state := .runnable, rsp } : Thread)]).length ≠ 1 := by
    rw [hthreads]
    simp only [List.length_append, List.length_cons]
    omega
  simp only [System.spawn, Scheduler.spawn, if_neg hlen]

theorem Sound.spawn (h : Sound s) (name : String) (entry rsp : ℕ) : Sound (s.spawn name entry rsp) := by
  have hsched := spawn_threads h name entry rsp
  obtain ⟨before, t, behind, hthreads, hcur, -, hstate, hothers⟩ := h.cut
  let new : Thread := { serial := s.nextSerial, name, state := .runnable, rsp }
  have hcut : (s.spawn name entry rsp).sched.threads = before ++ t :: (behind ++ [new]) := by
    rw [hsched, hthreads, append_assoc, List.cons_append]
  refine .of_cut hcut ?_ hstate (fun u hu => ?_) ?_ (fun u hu => ?_) ?_ h.calm
  · rw [hsched, hcur]
  · rw [← append_assoc] at hu
    rcases mem_append.mp hu with hu | hu
    · exact hothers u hu
    · rw [mem_singleton.mp hu]
      exact nofun
  · rw [hsched, List.map_append]
    refine h.nodup.append (List.nodup_singleton _) (List.disjoint_singleton.mpr fun hmem => ?_)
    obtain ⟨u, hu, hser⟩ := mem_map.mp hmem
    exact absurd hser (h.fresh u hu).ne
  · rw [hsched] at hu
    rcases mem_append.mp hu with hu | hu
    · exact (h.fresh u hu).trans (Nat.lt_succ_self _)
    · rw [mem_singleton.mp hu]
      exact Nat.lt_succ_self _
  · obtain ⟨u, hu, hmain⟩ := h.main
    exact ⟨u, hsched ▸ mem_append_left _ hu, hmain⟩

theorem Sound.reap (h : Sound s) (hphase : s.phase = .running) : Sound s.reap := by
  obtain ⟨before, t, behind, hthreads, hcur, -, hstate, hothers⟩ := h.cut
  obtain ⟨hsched, hphase', hnext⟩ := reap_eq hthreads hcur
  have hsub : s.reap.sched.threads.Sublist s.sched.threads := by
    rw [hsched, hthreads]
    exact filter_sublist.append (filter_sublist.cons_cons t)
  refine .of_cut (t := t) (by rw [hsched]) (by rw [hsched]) (by rwa [hphase']) (fun u hu => hothers u ?_)
    (h.nodup.sublist (hsub.map _)) (fun u hu => hnext ▸ h.fresh u (hsub.subset hu)) ?_ (by rw [hphase', hphase]; exact nofun)
  · rw [← List.filter_append] at hu
    exact List.mem_of_mem_filter hu
  · obtain ⟨u, hu, hser, halive⟩ := h.main
    refine ⟨u, ?_, hser, halive⟩
    rw [hthreads] at hu
    have hkeep : u.alive := by simpa [Thread.alive] using halive
    simp only [hsched, mem_append, mem_cons, List.mem_filter] at hu ⊢
    tauto

theorem exit_serials (s : System) : s.exit.sched.threads.map Thread.serial = s.sched.threads.map Thread.serial :=
  map_modify_of_eq fun _ => rfl

theorem exit_threads (h : s.sched.threads = before ++ t :: behind) (hcur : s.sched.current = before.length) :
    s.exit.sched.threads = before ++ { t with state := .finished } :: behind := by
  show s.sched.threads.modify s.sched.current _ = _
  rw [h, hcur]
  clear h hcur
  induction before with
  | nil => rfl
  | cons u before ih => exact congrArg (u :: ·) ih

theorem Sound.fresh_of_serials (h : Sound s) (hser : s'.sched.threads.map Thread.serial = s.sched.threads.map Thread.serial)
    (ht : t ∈ s'.sched.threads) : t.serial < s.nextSerial := by
  have hmem : t.serial ∈ s.sched.threads.map Thread.serial := hser ▸ List.mem_map_of_mem ht
  obtain ⟨v, hv, hv'⟩ := mem_map.mp hmem
  exact hv' ▸ h.fresh v hv

theorem Sound.exit (h : Sound s) (hmain : s.current?.map Thread.serial ≠ some 0) : Sound s.exit := by
  obtain ⟨before, t, behind, hthreads, hcur, ht, -, hothers⟩ := h.cut
  have hexit := exit_threads hthreads hcur
  have hserials := exit_serials s
  refine .of_cut (t := { t with state := .finished }) hexit hcur (by simp [System.exit]) hothers (hserials ▸ h.nodup)
    (fun u hu => h.fresh_of_serials hserials hu) ?_ nofun
  obtain ⟨u, hu, hser, halive⟩ := h.main
  refine ⟨u, ?_, hser, halive⟩
  have hne : u ≠ t := by
    rintro rfl
    exact hmain (by rw [ht, Option.map_some, hser])
  rw [hthreads] at hu
  simp only [hexit, mem_append, mem_cons] at hu ⊢
  tauto

/-! ### Yielding -/

structure Switches (s : System) (next : Thread) (pre post : List Thread) (s' : System) : Prop where
  order_eq : s.sched.order = pre ++ next :: post
  passed : ∀ t ∈ pre, t.state ≠ .runnable
  marks : s'.sched.threads.map Thread.mark = s.sched.threads.map Thread.mark
  queue_eq : s'.sched.queue = post.map Thread.serial ++ pre.map Thread.serial ++ [next.serial]
  current : ∃ t, s'.current? = some t ∧ t.serial = next.serial ∧ t.state = .running
  others : ∀ i t, i ≠ s'.sched.current → s'.sched.threads[i]? = some t →
    ∃ u, s.sched.threads[i]? = some u ∧ t.state = if u.state = .running then .runnable else u.state
  phase : s'.phase = .running
  nextSerial : s'.nextSerial = s.nextSerial

theorem stepDown_state (t : Thread) : (Scheduler.stepDown t).state = if t.state = .running then .runnable else t.state := by
  unfold Scheduler.stepDown
  split_ifs <;> rfl

theorem stepDown_mark (t : Thread) : (Scheduler.stepDown t).mark = t.mark := by
  rw [Thread.mark, Thread.mark, Thread.alive, Thread.alive, stepDown_state]
  by_cases h : t.state = .running <;> simp [h]

theorem switches_of_selects (h : Sound s) {old : Thread} {sched : Scheduler}
    (hsel : s.sched.Selects old next pre post sched) (newRsp sp : ℕ) :
    Switches s next pre post (System.contextSwitch s.sched.current newRsp sp { s with sched, phase := .running }) := by
  have hget : ∀ i, (System.contextSwitch s.sched.current newRsp sp { s with sched, phase := .running }).sched.threads[i]? =
      (sched.threads[i]?).map fun t => if s.sched.current = i then { t with rsp := sp } else t := by
    intro i
    simp only [System.contextSwitch, List.getElem?_modify]
    rfl
  have hplace : (s.sched.threads.set s.sched.current (Scheduler.stepDown old))[sched.current]? = some next := by
    rw [List.getElem?_set_ne hsel.moved.symm, hsel.place]
  have hserials : (System.contextSwitch s.sched.current newRsp sp { s with sched, phase := .running }).sched.threads.map
      Thread.serial = sched.threads.map Thread.serial := map_modify_of_eq fun _ => rfl
  refine ⟨hsel.order_eq, hsel.passed, ?_, ?_, ?_, ?_, rfl, rfl⟩
  · calc (sched.threads.modify s.sched.current fun t => { t with rsp := sp }).map Thread.mark
        = sched.threads.map Thread.mark := map_modify_of_eq fun _ => rfl
      _ = (s.sched.threads.set s.sched.current (Scheduler.stepDown old)).map Thread.mark := by
          rw [hsel.threads_eq]
          exact map_set_of_eq hplace (by simp [Thread.mark, Thread.alive, hsel.runnable])
      _ = s.sched.threads.map Thread.mark := map_set_of_eq hsel.left (stepDown_mark old)
  · rw [queue_eq, hserials, ← hsel.queue_eq, queue_eq]
    rfl
  · have hlt : sched.current < (s.sched.threads.set s.sched.current (Scheduler.stepDown old)).length :=
      (List.getElem?_eq_some_iff.mp hplace).1
    refine ⟨{ next with state := .running }, ?_, rfl, rfl⟩
    have hcur : (System.contextSwitch s.sched.current newRsp sp { s with sched, phase := .running }).sched.current =
      sched.current := rfl
    rw [System.current?, hcur, hget, hsel.threads_eq, List.getElem?_set_self hlt, Option.map_some, if_neg hsel.moved.symm]
  · intro i t hi ht
    have hi' : i ≠ sched.current := hi
    rw [hget, hsel.threads_eq, List.getElem?_set_ne hi'.symm] at ht
    by_cases hc : s.sched.current = i
    · subst hc
      have hlt := (List.getElem?_eq_some_iff.mp hsel.left).1
      rw [List.getElem?_set_self hlt, Option.map_some, if_pos rfl, Option.some.injEq] at ht
      refine ⟨old, hsel.left, ?_⟩
      rw [← ht, ← stepDown_state]
    · rw [List.getElem?_set_ne hc] at ht
      obtain ⟨u, hu, hut⟩ := Option.map_eq_some_iff.mp ht
      rw [if_neg hc] at hut
      refine ⟨u, hu, ?_⟩
      rw [if_neg (h.others i u (Ne.symm hc) hu), hut]

theorem yieldNow_cases (h : Sound s) (sp : ℕ) :
    (s.yieldNow sp = s.goOn ∧ selected s (.yieldNow sp) = none ∧ ∀ t ∈ s.sched.threads, t.state ≠ .runnable) ∨
      ∃ next pre post, Switches s next pre post (s.yieldNow sp) ∧ selected s (.yieldNow sp) = some next.serial ∧
        ∃ sw sched, Scheduler.pickNext s.sched = (.ok (some sw) sched : Outcome Empty _ _) := by
  obtain ⟨old, hold, hstate⟩ := h.current
  have hrun : old.state ≠ .runnable := by
    rw [hstate]
    split_ifs <;> simp
  obtain ⟨hpick, hnone⟩ | ⟨next, pre, post, sched, hpick, hsel⟩ := Scheduler.pickNext_cases (ε := Empty) hold hrun
  · refine .inl ⟨?_, ?_, hnone⟩
    · simp only [System.yieldNow, hpick]
    · simp only [selected, hpick]
  · have hyield : s.yieldNow sp = System.contextSwitch s.sched.current next.rsp sp { s with sched, phase := .running } := by
      simp only [System.yieldNow, hpick]
    have hsw := switches_of_selects h hsel next.rsp sp
    rw [← hyield] at hsw
    refine .inr ⟨next, pre, post, hsw, ?_, _, _, hpick⟩
    obtain ⟨t, ht, hser, -⟩ := hsw.current
    simp only [selected, hpick, ht, Option.map_some, hser]

theorem state_eq_runnable (hrun : t.state ≠ .running) (halive : t.state ≠ .finished) : t.state = .runnable := by
  cases hs : t.state with
  | runnable => rfl
  | running => exact absurd hs hrun
  | finished => exact absurd hs halive

theorem Sound.runnable_of_exiting (h : Sound s) (hphase : s.phase = .exiting) : ∃ t ∈ s.sched.threads, t.state = .runnable := by
  obtain ⟨before, t, behind, hthreads, -, -, hstate, hothers⟩ := h.cut
  obtain ⟨u, hu, -, halive⟩ := h.main
  rw [if_pos hphase] at hstate
  refine ⟨u, hu, state_eq_runnable (hothers u ?_) halive⟩
  rw [hthreads] at hu
  simp only [mem_append, mem_cons] at hu ⊢
  rcases hu with hu | rfl | hu
  · exact .inl hu
  · exact absurd hstate halive
  · exact .inr hu

theorem Switches.sound (h : Sound s) (hsw : Switches s next pre post s') : Sound s' := by
  have hserials := serials_of_marks hsw.marks
  constructor
  · obtain ⟨t, ht, -, hstate⟩ := hsw.current
    refine ⟨t, ht, ?_⟩
    rw [hstate, hsw.phase]
    rfl
  · intro i t hi ht
    obtain ⟨u, -, hstate⟩ := hsw.others i t hi ht
    rw [hstate]
    split_ifs with hu
    · simp
    · exact hu
  · rw [hserials]
    exact h.nodup
  · exact fun t ht => hsw.nextSerial ▸ h.fresh_of_serials hserials ht
  · rw [alive_iff, hsw.marks, ← alive_iff]
    exact h.main
  · rw [hsw.phase]
    simp

theorem Sound.yieldNow (h : Sound s) (sp : ℕ) : Sound (s.yieldNow sp) := by
  obtain ⟨hback, -, hnone⟩ | ⟨next, pre, post, hsw, -⟩ := yieldNow_cases h sp
  · have hphase : s.phase ≠ .exiting := by
      intro hphase
      obtain ⟨t, ht, hrun⟩ := h.runnable_of_exiting hphase
      exact hnone t ht hrun
    rw [hback, System.goOn, if_neg hphase]
    exact h
  · exact hsw.sound h

/-! ### Runs -/

def MainStays (s : System) (e : Event) : Prop :=
  match e with
  | .exit => s.current?.map Thread.serial ≠ some 0
  | _ => True

theorem step_cases (h : Sound s) (hs : step s e = some s') :
    (∃ name entry rsp, e = .spawn name entry rsp ∧ s' = s.spawn name entry rsp) ∨
      (∃ sp, e = .yieldNow sp ∧ s' = s.yieldNow sp) ∨
      (e = .reap ∧ s.phase = .running ∧ s' = s.reap) ∨ (e = .exit ∧ s' = s.exit) := by
  cases e with
  | spawn name entry rsp =>
    obtain ⟨-, hs⟩ := Option.ite_none_right_eq_some.mp hs
    exact .inl ⟨name, entry, rsp, rfl, (Option.some.inj hs).symm⟩
  | yieldNow sp =>
    rw [step, if_neg h.calm] at hs
    exact .inr (.inl ⟨sp, rfl, (Option.some.inj hs).symm⟩)
  | reap =>
    obtain ⟨hphase, hs⟩ := Option.ite_none_right_eq_some.mp hs
    exact .inr (.inr (.inl ⟨rfl, hphase, (Option.some.inj hs).symm⟩))
  | exit =>
    obtain ⟨-, hs⟩ := Option.ite_none_right_eq_some.mp hs
    exact .inr (.inr (.inr ⟨rfl, (Option.some.inj hs).symm⟩))

theorem Sound.step (h : Sound s) (hmain : MainStays s e) (hs : step s e = some s') : Sound s' := by
  obtain ⟨name, entry, rsp, rfl, rfl⟩ | ⟨sp, rfl, rfl⟩ | ⟨rfl, hphase, rfl⟩ | ⟨rfl, rfl⟩ := step_cases h hs
  · exact h.spawn name entry rsp
  · exact h.yieldNow sp
  · exact h.reap hphase
  · exact h.exit hmain

theorem sound_of_run (h : Run step s tr s') (hs : Sound s) (hmain : ∀ x ∈ tr, MainStays x.1 x.2) : Sound s' :=
  h.invariant hs hmain fun _ _ _ => Sound.step

/-! ### Reaping keeps what it should -/

structure Reaps (s s' : Scheduler) : Prop where
  kept : s'.threads.Sublist s.threads
  removed : ∀ i t, s.threads[i]? = some t → t ∉ s'.threads → t.state = .finished ∧ i ≠ s.current
  current : s'.threads[s'.current]? = s.threads[s.current]?

theorem Sound.reaps (h : Sound s) : Reaps s.sched s.reap.sched := by
  obtain ⟨before, t, behind, hthreads, hcur, ht, -⟩ := h.cut
  obtain ⟨hsched, -⟩ := reap_eq hthreads hcur
  rw [System.current?] at ht
  constructor
  · rw [hsched, hthreads]
    exact filter_sublist.append (filter_sublist.cons_cons t)
  · intro i u hu hgone
    have hne : u ≠ t := by
      rintro rfl
      exact hgone (by simp [hsched])
    refine ⟨?_, ?_⟩
    · by_contra hstate
      have halive : u.alive := by simpa [Thread.alive] using hstate
      have hmem : u ∈ s.sched.threads := mem_of_getElem? hu
      rw [hthreads] at hmem
      rw [hsched] at hgone
      simp only [mem_append, mem_cons, List.mem_filter] at hmem hgone
      tauto
    · rintro rfl
      rw [ht, Option.some.injEq] at hu
      exact hne hu.symm
  · rw [ht, hsched]
    simp

/-! ### Fairness -/

section

variable (h : Sound s)
include h

theorem spawn_queue (name : String) (entry rsp : ℕ) :
    s.sched.queue.Sublist (s.spawn name entry rsp).sched.queue := by
  obtain ⟨before, t, behind, hthreads, hcur, -⟩ := h.cut
  have hsched := spawn_threads h name entry rsp
  rw [hthreads, append_assoc, List.cons_append] at hsched
  have horder := order_of_cut (s := (s.spawn name entry rsp).sched) (by rw [hsched]) (by rw [hsched, hcur])
  rw [Scheduler.queue, Scheduler.queue, horder, order_of_cut hthreads hcur]
  exact ((List.sublist_append_left behind _).append (List.Sublist.refl _)).map _

theorem reap_order (hphase : s.phase = .running) : s.reap.sched.order = s.sched.order.filter Thread.alive := by
  obtain ⟨before, t, behind, hthreads, hcur, -, hstate, -⟩ := h.cut
  obtain ⟨hsched, -⟩ := reap_eq hthreads hcur
  have halive : t.alive := by simp [Thread.alive, hstate, hphase]
  have horder := order_of_cut (s := s.reap.sched) (by rw [hsched]) (by rw [hsched])
  rw [horder, order_of_cut hthreads hcur]
  simp [halive]

theorem Switches.passed_finished (hsw : Switches s next pre post s') (ht : t ∈ pre) : t.state = .finished := by
  obtain ⟨before, cur, behind, hthreads, hcur, -, -, hothers⟩ := h.cut
  have horder := order_of_cut hthreads hcur
  have hnodup : s.sched.order.Nodup := List.Nodup.of_map Thread.serial (queue_nodup h)
  have hlast : cur ∈ next :: post := by
    rw [hsw.order_eq, ← append_assoc] at horder
    obtain hnil | ⟨l, z, hl⟩ := List.eq_nil_or_concat' (next :: post)
    · cases hnil
    · rw [hl, ← append_assoc] at horder
      obtain ⟨-, hz⟩ := List.append_inj' horder rfl
      rw [hl, ← List.singleton_inj.mp hz]
      simp
  rw [hsw.order_eq] at hnodup
  have htcur : t ≠ cur := by
    rintro rfl
    exact List.disjoint_of_nodup_append hnodup ht hlast
  have hmem : t ∈ s.sched.threads := by
    rw [← mem_order, hsw.order_eq]
    exact mem_append_left _ ht
  have hother : t ∈ before ++ behind := by
    rw [hthreads] at hmem
    simp only [mem_append, mem_cons] at hmem ⊢
    tauto
  by_contra halive
  exact hsw.passed t ht (state_eq_runnable (hothers t hother) halive)

theorem Switches.not_passed (hsw : Switches s next pre post s') (hk : Alive k s) : k ∉ pre.map Thread.serial := by
  intro hmem
  obtain ⟨t, htpre, hser⟩ := mem_map.mp hmem
  have ht : t ∈ s.sched.threads := by
    rw [← mem_order, hsw.order_eq]
    exact mem_append_left _ htpre
  exact h.alive_of_serial hk ht hser (hsw.passed_finished h htpre)

theorem Sound.lt_of_alive (hk : Alive k s) : k < s.nextSerial := by
  obtain ⟨t, ht, hser, -⟩ := hk
  exact hser ▸ h.fresh t ht

end

theorem Switches.queue_before (hsw : Switches s next pre post s') :
    s.sched.queue = pre.map Thread.serial ++ next.serial :: post.map Thread.serial := by
  rw [Scheduler.queue, hsw.order_eq, List.map_append, List.map_cons]

section

variable (h : Sound s) (hs : step s e = some s')
include h hs

theorem switches_of_selected (hsel : selected s e = some a) :
    ∃ next pre post, Switches s next pre post s' ∧ next.serial = a := by
  obtain ⟨name, entry, rsp, rfl, rfl⟩ | ⟨sp, rfl, rfl⟩ | ⟨rfl, -, rfl⟩ | ⟨rfl, rfl⟩ := step_cases h hs
  · cases hsel
  · obtain ⟨-, hnone, -⟩ | ⟨next, pre, post, hsw, hnext, -⟩ := yieldNow_cases h sp
    · cases hnone.symm.trans hsel
    · exact ⟨next, pre, post, hsw, Option.some.inj (hnext.symm.trans hsel)⟩
  · cases hsel
  · cases hsel

theorem turns_step (ha : Alive a s) (hb : Alive b s) (hsel : selected s e ≠ some a)
    (ht : Turns a b s.sched.queue n) : Turns a b s'.sched.queue (n + if selected s e = some b then 1 else 0) := by
  obtain ⟨name, entry, rsp, rfl, rfl⟩ | ⟨sp, rfl, rfl⟩ | ⟨rfl, hphase, rfl⟩ | ⟨rfl, rfl⟩ := step_cases h hs
  · exact ht.join (spawn_queue h name entry rsp)
  · obtain ⟨hback, hnone, -⟩ | ⟨next, pre, post, hsw, hnext, -⟩ := yieldNow_cases h sp
    · have hsame : (s.yieldNow sp).sched = s.sched := by
        rw [hback, System.goOn]
        split_ifs <;> rfl
      rw [hsame, hnone]
      simpa using ht
    · have hnodup := queue_nodup h
      rw [hsw.queue_before] at ht hnodup
      rw [hnext] at hsel ⊢
      rw [hsw.queue_eq]
      have hturn := ht.turn hnodup (hsw.not_passed h ha) (hsw.not_passed h hb) (fun h => hsel (h ▸ rfl))
      simpa using hturn
  · have hkeep : ∀ {k : ℕ}, Alive k s → ∀ t ∈ s.sched.order, t.serial = k → t.alive := by
      intro k hk t hmem hser
      simpa [Thread.alive] using h.alive_of_serial hk (mem_order.mp hmem) hser
    have hleave := ht.leave (hkeep ha) (hkeep hb)
    rwa [← reap_order h hphase] at hleave
  · have hsame : s.exit.sched.queue = s.sched.queue := by
      rw [queue_eq, queue_eq, exit_serials]
      rfl
    rw [hsame]
    exact ht

theorem turns_of_selection
    (hsel : selected s e = some a) (hb : Alive b s') (hne : b ≠ a) : Turns a b s'.sched.queue 0 := by
  obtain ⟨next, pre, post, hsw, rfl⟩ := switches_of_selected h hs hsel
  have hmem : b ∈ s'.sched.queue := by
    obtain ⟨t, ht, hser, -⟩ := hb
    exact hser ▸ List.mem_map_of_mem (mem_order.mpr ht)
  rw [hsw.queue_eq] at hmem ⊢
  rcases mem_append.mp hmem with hmem | hmem
  · exact turns_of_selected hmem
  · exact absurd (mem_singleton.mp hmem) hne

theorem eq_one_of_selection (hsel : selected s e = some a) (hb : Alive b s)
    (hne : b ≠ a) (ht : Turns a b s.sched.queue n) : n = 1 := by
  obtain ⟨next, pre, post, hsw, rfl⟩ := switches_of_selected h hs hsel
  have hnodup := queue_nodup h
  rw [hsw.queue_before] at ht hnodup
  exact ht.eq_one hnodup (hsw.not_passed h hb) hne

theorem nextSerial_le : s.nextSerial ≤ s'.nextSerial := by
  obtain ⟨name, entry, rsp, rfl, rfl⟩ | ⟨sp, rfl, rfl⟩ | ⟨rfl, -, rfl⟩ | ⟨rfl, rfl⟩ := step_cases h hs
  · exact Nat.le_succ _
  · obtain ⟨hback, -⟩ | ⟨next, pre, post, hsw, -⟩ := yieldNow_cases h sp
    · rw [hback, System.goOn]
      split_ifs <;> exact le_rfl
    · exact hsw.nextSerial.ge
  · obtain ⟨before, cur, behind, hthreads, hcur, -⟩ := h.cut
    exact (reap_eq hthreads hcur).2.2.ge
  · exact le_rfl

theorem alive_before (hk : k < s.nextSerial) (halive : Alive k s') : Alive k s := by
  obtain ⟨t, ht, hser, hstate⟩ := halive
  obtain ⟨name, entry, rsp, rfl, rfl⟩ | ⟨sp, rfl, rfl⟩ | ⟨rfl, -, rfl⟩ | ⟨rfl, rfl⟩ := step_cases h hs
  · rw [spawn_threads h] at ht
    rcases mem_append.mp ht with ht | ht
    · exact ⟨t, ht, hser, hstate⟩
    · rw [mem_singleton.mp ht] at hser
      exact absurd hser hk.ne'
  · obtain ⟨hback, -⟩ | ⟨next, pre, post, hsw, -⟩ := yieldNow_cases h sp
    · rw [hback, System.goOn] at ht
      split_ifs at ht
      · exact ⟨t, ht, hser, hstate⟩
      · exact ⟨t, ht, hser, hstate⟩
    · rw [alive_iff, ← hsw.marks, ← alive_iff]
      exact ⟨t, ht, hser, hstate⟩
  · exact ⟨t, h.reaps.kept.subset ht, hser, hstate⟩
  · obtain ⟨before, cur, behind, hthreads, hcur, -⟩ := h.cut
    refine ⟨t, ?_, hser, hstate⟩
    simp only [exit_threads hthreads hcur, hthreads, mem_append, mem_cons] at ht ⊢
    rcases ht with ht | rfl | ht
    · exact .inl ht
    · exact absurd rfl hstate
    · exact .inr (.inr ht)

end

def Fair (tr : List (System × Event)) : Prop :=
  ∀ tr₁ s₁ e₁ mid s₂ e₂ tr₂ a b, tr = tr₁ ++ (s₁, e₁) :: mid ++ (s₂, e₂) :: tr₂ →
    selected s₁ e₁ = some a → selected s₂ e₂ = some a → a ∉ selections mid →
    b ≠ a → (∀ x ∈ mid, Alive b x.1) → Alive b s₂ → (selections mid).count b = 1

theorem selections_snoc (tr : List (System × Event)) (s : System) (e : Event) (b : ℕ) :
    (selections (tr ++ [(s, e)])).count b = (selections tr).count b + if selected s e = some b then 1 else 0 := by
  cases h : selected s e with
  | none => simp [h, selections]
  | some k => by_cases hk : k = b <;> simp [h, hk, selections]

theorem alive_of_selected (h : Sound s) (hs : step s e = some s') (hsel : selected s e = some a) : Alive a s ∧ Alive a s' := by
  obtain ⟨next, pre, post, hsw, rfl⟩ := switches_of_selected h hs hsel
  obtain ⟨t, ht, hser, hstate⟩ := hsw.current
  have hafter : Alive next.serial s' := ⟨t, mem_of_getElem? ht, hser, by simp [hstate]⟩
  refine ⟨?_, hafter⟩
  rw [alive_iff, ← hsw.marks, ← alive_iff]
  exact hafter

theorem turns_of_run (h : Run step s tr s') (hs : Sound s) (ha : a < s.nextSerial) (hstart : Turns a b s.sched.queue 0)
    (hmain : ∀ x ∈ tr, MainStays x.1 x.2) (hb : ∀ x ∈ tr, Alive b x.1) (hnot : a ∉ selections tr) (hend : Alive a s') :
    Turns a b s'.sched.queue ((selections tr).count b) := by
  let I (tr : List (System × Event)) (s : System) : Prop :=
    Sound s ∧ a < s.nextSerial ∧ (Alive a s → Turns a b s.sched.queue ((selections tr).count b))
  let K (s : System) (e : Event) : Prop := MainStays s e ∧ Alive b s ∧ selected s e ≠ some a
  have hK : ∀ x ∈ tr, K x.1 x.2 := fun x hx => ⟨hmain x hx, hb x hx, fun hsel => hnot (List.mem_filterMap.mpr ⟨x, hx, hsel⟩)⟩
  have hI : I tr s' := by
    refine h.history ⟨hs, ha, fun _ => hstart⟩ hK fun tr s e s' hI hK hstep => ?_
    obtain ⟨hsound, hlt, hturns⟩ := hI
    obtain ⟨hmain, hb, hsel⟩ := hK
    refine ⟨hsound.step hmain hstep, hlt.trans_le (nextSerial_le hsound hstep), fun halive => ?_⟩
    have hbefore := alive_before hsound hstep hlt halive
    rw [selections_snoc]
    exact turns_step hsound hstep hbefore hb hsel (hturns hbefore)
  exact hI.2.2 hend

structure Valid (s : System) : Prop where
  current : ∃ t, s.current? = some t ∧ t.state = if s.phase = .exiting then .finished else .running
  others : ∀ i t, i ≠ s.sched.current → s.sched.threads[i]? = some t → t.state = .runnable ∨ t.state = .finished

def CanSwitch (s : System) : Prop := ∃ sw sched, Scheduler.pickNext s.sched = (.ok (some sw) sched : Outcome Empty _ _)

theorem Sound.valid (h : Sound s) : Valid s := by
  refine ⟨h.current, fun i t hi ht => ?_⟩
  by_cases halive : t.state = .finished
  · exact .inr halive
  · exact .inl (state_eq_runnable (h.others i t hi ht) halive)

theorem Sound.canSwitch (h : Sound s) (hphase : s.phase = .exiting) : CanSwitch s := by
  obtain ⟨-, -, hnone⟩ | ⟨next, pre, post, -, -, hpick⟩ := yieldNow_cases h 0
  · obtain ⟨t, ht, hrun⟩ := h.runnable_of_exiting hphase
    exact absurd hrun (hnone t ht)
  · exact hpick

theorem fair_of_run (h : Run step s tr s') (hs : Sound s) (hmain : ∀ x ∈ tr, MainStays x.1 x.2) : Fair tr := by
  intro tr₁ s₁ e₁ mid s₂ e₂ tr₂ a b htr hsel₁ hsel₂ hnot hne hmid hend
  rw [htr] at h hmain
  obtain ⟨u₂, hrun₂, hrest₂⟩ := h.split
  obtain ⟨u₁, hrun₁, hrest₁⟩ := hrun₂.split
  obtain ⟨rfl, v₁, hstep₁, hrunMid⟩ := hrest₁.of_cons
  obtain ⟨rfl, v₂, hstep₂, -⟩ := hrest₂.of_cons
  have hsound₁ : Sound s₁ := sound_of_run hrun₁ hs fun x hx => hmain x (by simp [hx])
  have hsoundV : Sound v₁ := hsound₁.step (hmain (s₁, e₁) (by simp)) hstep₁
  have hmainMid : ∀ x ∈ mid, MainStays x.1 x.2 := fun x hx => hmain x (by simp [hx])
  have hsound₂ : Sound s₂ := sound_of_run hrunMid hsoundV hmainMid
  have ha₁ : Alive a v₁ := (alive_of_selected hsound₁ hstep₁ hsel₁).2
  have ha₂ : Alive a s₂ := (alive_of_selected hsound₂ hstep₂ hsel₂).1
  have hb : Alive b v₁ := hrunMid.start hmid hend
  have hstart := turns_of_selection hsound₁ hstep₁ hsel₁ hb hne
  have hturns := turns_of_run hrunMid hsoundV (hsoundV.lt_of_alive ha₁) hstart hmainMid hmid hnot ha₂
  exact eq_one_of_selection hsound₂ hstep₂ hsel₂ hend hne hturns

/-- **Kernel threads are scheduled soundly and fairly**, as long as the main thread does not exit. -/
theorem threads_sound_fair {tr : List (System × Event)} {t : System} (h : Run step System.boot.initAsMain tr t)
    (hmain : ∀ x ∈ tr, MainStays x.1 x.2) :
    Valid t ∧ Reaps t.sched t.reap.sched ∧ Fair tr ∧ (t.phase = .exiting → CanSwitch t) ∧ t.phase ≠ .panicked := by
  have hsound : Sound t := sound_of_run h sound_initAsMain hmain
  exact ⟨hsound.valid, hsound.reaps, fair_of_run h sound_initAsMain hmain, hsound.canSwitch, hsound.calm⟩

instance (s : System) : (e : Event) → Decidable (MainStays s e)
  | .exit => inferInstanceAs (Decidable (_ ≠ _))
  | .spawn _ _ _ | .yieldNow _ | .reap => isTrue trivial

/-- Two threads take turns with the main one; one of them exits and is reaped by the other. -/
theorem threads_sound_fair_reaped : ∃ tr t, Run step System.boot.initAsMain tr t ∧ (∀ x ∈ tr, MainStays x.1 x.2) ∧
    t.sched.threads.map Thread.serial = [0, 2] ∧ selections tr = [1, 2, 0, 2] ∧ Fair tr := by
  have hfinal : (exec step MainStays System.boot.initAsMain [.spawn "a" 1 100, .spawn "b" 2 200, .yieldNow 10, .exit,
      .yieldNow 20, .reap, .yieldNow 30, .yieldNow 40]).any fun t => t.sched.threads.map Thread.serial = [0, 2] := by
    decide +kernel
  obtain ⟨t, hrun, hmain, hlast⟩ := run_of_any hfinal
  exact ⟨_, t, hrun, hmain, hlast, by decide +kernel, (threads_sound_fair hrun hmain).2.2.1⟩

end RustKernel.Threads
