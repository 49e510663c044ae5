import QssStorage.Conc.Ascent
import QssStorage.Spec.System

/-!
# The order of the stripes

A task takes the stripe of one block, or those of a batch in one acquisition, works, and gives them
back. A batch may name a block twice, and blocks that share a stripe.

* `stripes_in_order`: **tasks never wait for each other in a cycle, and no two are past acquisition
  for one block.**
-/

namespace QssStorage

open Conc

/-- What a task locks: a block (`for_hash`) or a batch (`lock_batch`). -/
inductive Wanted where
  | block (id : BlockId)
  | batch (ids : List BlockId)

namespace Wanted

variable (n : ℕ)

def ids : Wanted → List BlockId
  | block id => [id]
  | batch ids => ids

def stripes : Wanted → List ℕ
  | block id => [stripeOf n id]
  | batch ids => batchStripes n ids

theorem stripes_ascending (x : Wanted) : (x.stripes n).Pairwise (· < ·) := by
  cases x with
  | block id => exact List.pairwise_singleton _ _
  | batch ids =>
    have hsorted := (List.pairwise_insertionSort (· ≤ ·) (ids.map (stripeOf n))).sublist (List.dedup_sublist _)
    exact (hsorted.and (List.nodup_dedup _)).imp fun h => lt_of_le_of_ne h.1 h.2

theorem stripeOf_mem {x : Wanted} {id : BlockId} (h : id ∈ x.ids) : stripeOf n id ∈ x.stripes n := by
  cases x with
  | block id' => exact List.mem_singleton.2 (congrArg (stripeOf n) (List.mem_singleton.1 h))
  | batch ids => exact List.mem_dedup.2 ((List.perm_insertionSort _ _).mem_iff.2 (List.mem_map_of_mem h))

end Wanted

/-- A task, with what it does under its stripes. -/
structure StripeTask where
  wanted : Wanted
  body : StoreProg Unit
  lockFree : body.LockFree

namespace StripeTask

variable (n : ℕ)

/-- `for_hash` or `lock_batch`, the work, and the guard is dropped. -/
def prog (task : StripeTask) : StoreProg Unit := task.body.under (task.wanted.stripes n)

/-- The thread is at work: it has the stripes it wants, and the guard is not dropped. -/
def PastAcquisition (task : StripeTask) (t : Thread Store Choice ℕ Unit) : Prop :=
  ∃ p ∈ t.prog, p.Inside (task.wanted.stripes n)

end StripeTask

/-- A set of tasks over one set of stripes. -/
def stripeSystem {Op : Type} (n : ℕ) (tasks : Op → StripeTask) (reset : Store → Store) : System Op Store Choice ℕ Unit :=
  ⟨fun o => (tasks o).prog n, reset⟩

/-- **Tasks never wait for each other in a cycle, and no two are past acquisition for one block.** -/
theorem stripes_in_order {Op : Type} {n : ℕ} {tasks : Op → StripeTask} {reset : Store → Store} {s : Store}
    {w : Pool Store Choice ℕ Unit} (h : Pool.Reach (stripeSystem n tasks reset) (fun _ _ => True) (Pool.start s) w) :
    (∀ i, ¬ Relation.TransGen w.Waits i i) ∧
      ∀ (i j : ℕ) t u, w.threads[i]? = some t → w.threads[j]? = some u → ∀ (task task' : StripeTask) (id : BlockId),
        id ∈ task.wanted.ids → id ∈ task'.wanted.ids → task.PastAcquisition n t → task'.PastAcquisition n u → i = j := by
  have horder : w.Orderly := h.orderly fun o => Prog.ascends_under ((tasks o).wanted.stripes_ascending n) (tasks o).lockFree
  -- past acquisition a thread holds the stripe of every block it wants
  have hholds : ∀ {i : ℕ} {t} {task : StripeTask} {id}, w.threads[i]? = some t → task.PastAcquisition n t →
      id ∈ task.wanted.ids → w.Holds i (stripeOf n id) := by
    rintro i t task id ht ⟨p, hp, hin⟩ hid
    exact ⟨t, ht, hin.mem (horder.ascends t (List.mem_of_getElem? ht) p hp) (Wanted.stripeOf_mem n hid)⟩
  exact ⟨fun i => horder.no_cycle, fun i j t u ht hu task task' id hid hid' hpast hpast' =>
    horder.apart i j (stripeOf n id) (hholds ht hpast hid) (hholds hu hpast' hid')⟩

/-- A batch that names one block twice. -/
def twiceTask : StripeTask := ⟨.batch [abcId, abcId], .ret (), trivial⟩

/-- Of two such tasks the first has the stripe: the second waits for it, nobody waits in a cycle,
and the second is not past acquisition. -/
theorem stripes_in_order_twice : ∃ w : Pool Store Choice ℕ Unit,
    (Pool.start Store.empty).exec (stripeSystem 1 (fun _ : Unit => twiceTask) id)
      [.spawn (), .spawn (), .run 0 steady] = some w ∧ w.Waits 1 0 ∧
      (∀ i, ¬ Relation.TransGen w.Waits i i) ∧ (∃ t ∈ w.threads[0]?, twiceTask.PastAcquisition 1 t) ∧
      ∀ u ∈ w.threads[1]?, ¬ twiceTask.PastAcquisition 1 u := by
  have horder : ∀ w, (Pool.start Store.empty).exec (stripeSystem 1 (fun _ : Unit => twiceTask) id)
      [.spawn (), .spawn (), .run 0 steady] = some w → _ ∧ _ :=
    fun w h => stripes_in_order (Pool.Reach.exec .refl (fun _ _ _ => trivial) h)
  obtain ⟨hcycle, hapart⟩ := horder _ rfl
  have hpast : twiceTask.PastAcquisition 1 ⟨some (.release (stripeOf 1 abcId) (.ret ())), [stripeOf 1 abcId]⟩ :=
    ⟨_, rfl, .ret (), trivial, rfl⟩
  refine ⟨_, rfl, ⟨0, ⟨_, _, rfl, rfl⟩, _, rfl, List.mem_cons_self⟩, hcycle, ⟨_, rfl, hpast⟩, fun u hu hpast' => ?_⟩
  exact absurd (hapart 0 1 _ u rfl hu twiceTask twiceTask abcId List.mem_cons_self List.mem_cons_self hpast hpast')
    (by decide)

end QssStorage
