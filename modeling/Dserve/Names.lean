import Dserve.Catalogue
import Dserve.Retention

/-!
The names of the entries.

A `DOWNLOAD` whose name is in the queue is refused, and no step changes the name of an entry. So the
names in the queue stay different, in every run and in each of its states, when those in the index
file are (`names_distinct`): `queue_load` does not compare them.
-/

namespace Dserve

/-- The names of the entries that are or will be in the queue. -/
def View.names (v : View) : List CString :=
  v.mem.queue.map v.mem.name ++ v.pc.unloaded.map fun e => e.id.name

section

variable {dangles : Prop} {max : Nat} {v w : View}

/-- The names stay different when no entry is new and none is renamed. -/
theorem names_stay (distinct : v.names.Nodup) (queue : w.mem.queue.Sublist v.mem.queue)
    (name : ∀ p ∈ v.mem.queue, w.mem.name p = v.mem.name p)
    (unloaded : w.pc.unloaded.Sublist v.pc.unloaded) : w.names.Nodup := by
  refine distinct.sublist ?_
  unfold View.names
  rw [List.map_congr_left fun p member => name p (queue.subset member)]
  exact (queue.map _).append (unloaded.map _)

/-- No step brings back an entry that was loaded. -/
theorem step_remaining {a : Action} (step : View.Step dangles max v a w) :
    w.pc.unloaded.Sublist v.pc.unloaded := by
  cases step with
  | control move =>
      cases move with
      | goto next =>
          cases next with
          | load pc => rw [pc]; exact List.Sublist.refl _
          | leave _ _ _ after | missing _ _ after => cases after <;> exact List.nil_sublist _
          | _ => exact List.nil_sublist _
      | push pc => rw [pc]; exact List.sublist_cons_self _ _
      | assign _ after | kill _ _ after => cases after <;> exact List.nil_sublist _
      | _ => exact List.nil_sublist _
  | thread => exact List.Sublist.refl _
  | @request r => cases r.command <;> exact List.nil_sublist _
  | terminate _ _ ended => rcases ended with rfl | rfl <;> exact List.nil_sublist _
  | threadCrash | save => exact List.nil_sublist _

/-- No step gives two entries the same name. -/
theorem step_names {a : Action} (sound : Sound v) (distinct : v.names.Nodup)
    (step : View.Step dangles max v a w) : w.names.Nodup := by
  have name : ∀ p ∈ v.mem.queue, w.mem.name p = v.mem.name p := fun p member =>
    congrArg TrxId.name (step_idUrl step (sound.mem.queueBelow p member)).1
  have remaining := step_remaining step
  have appended (e : Entry) (mem : w.mem = View.push v.mem e) :
      w.mem.queue.map w.mem.name = v.mem.queue.map v.mem.name ++ [e.id.name] := by
    have new : w.mem.name v.mem.nextEntry = e.id.name := by
      rw [mem]
      simp [View.push, Mem.name]
    rw [mem, View.push_queue, ← mem, List.map_append, List.map_congr_left name, List.map_singleton, new]
  cases step with
  | control move =>
      cases move with
      | @push e entries pc =>
          have same :
              View.names ⟨v.request, View.push v.mem e, .loading entries, v.reported⟩ = v.names := by
            unfold View.names
            rw [appended e rfl, pc]
            simp [Pc.unloaded]
          exact same ▸ distinct
      | @added e _ pc target fresh =>
          unfold View.names at distinct ⊢
          rw [appended e rfl]
          rw [pc] at distinct
          simp only [Pc.unloaded, List.map_nil, List.append_nil] at distinct ⊢
          refine List.nodup_append.mpr ⟨distinct, List.nodup_singleton _, ?_⟩
          intro id old id' new same
          obtain ⟨p, member, rfl⟩ := List.mem_map.mp old
          rw [List.mem_singleton.mp new, (entrySetTarget_spec target).1] at same
          exact fresh p member same
      | @unlink p queue pc left =>
          have sub : queue.Sublist v.mem.queue := by
            rcases left with rfl | ⟨-, rfl, -⟩
            · exact List.eraseP_sublist
            · exact List.nil_sublist _
          exact names_stay distinct (by rwa [Mem.queue_eq rfl]) name remaining
      | _ => exact names_stay distinct (List.Sublist.refl _) name remaining
  | thread _ _ _ stepped =>
      have queue := (Mem.threadStep_move stepped).queue
      exact names_stay distinct (queue ▸ List.Sublist.refl _) name remaining
  | _ => exact names_stay distinct (List.Sublist.refl _) name remaining

/-- When the entries of the index file have different names, no two entries of the queue ever have
the same. -/
theorem names_distinct {L : Type → Type} [ListApi L] [LawfulListApi L] {entries : List Entry}
    {c : Config L} (distinct : (entries.map fun e => e.id.name).Nodup)
    (run : (controller L max).Reachable (boot L entries) c) : (c.mem.queue.map c.mem.name).Nodup := by
  have start : (boot L entries).view.names = entries.map fun e => e.id.name := by
    unfold View.names
    rw [view_mem, Mem.abs_queue]
    rfl
  have inv := reachable_invariant (I := fun v => Sound v ∧ v.names.Nodup) (boot_wf entries)
    ⟨boot_sound entries, start ▸ distinct⟩
    (fun v a w inv step => ⟨step_sound inv.1 step, step_names inv.1 inv.2 step⟩) run
  have all := (List.nodup_append.mp inv.2.2).1
  rwa [view_mem, Mem.abs_queue] at all

end

/-- A file with two names, and a `DOWNLOAD` under a third. -/
theorem names_distinct_run : ∃ c : Config HeapList,
    (controller HeapList 0).Reachable
      (boot HeapList [{ entryNew with id := ⟨['a']⟩ }, { entryNew with id := ⟨['b']⟩ }]) c ∧
      c.mem.queue.map c.mem.name = [['a'], ['b'], ['c']] ∧ (c.mem.queue.map c.mem.name).Nodup := by
  obtain ⟨c, run, names⟩ := Machine.exists_run_of_exec (controller HeapList 0) (fun _ _ => True)
    (boot HeapList [{ entryNew with id := ⟨['a']⟩ }, { entryNew with id := ⟨['b']⟩ }])
    (List.replicate 9 (.control {}) ++ ask (download ['c'] ['x', '/', 'c']) 1)
    (fun c => c.mem.queue.map c.mem.name = [['a'], ['b'], ['c']]) (by decide)
  exact ⟨c, run, names, names_distinct (by decide) run⟩

end Dserve
