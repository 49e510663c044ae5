import QssStorage.Proof.Parts

/-!
# The usage counter of a bucket

An object record and the counter of its bucket move in one transaction: `RecordTx` says by
how much. A step that is no such transaction leaves both alone. So the counter is the sum
of the recorded sizes in every state of a run, as long as that sum fits the `i64` the
difference is computed in.

* `usage_exact_reachable`: **every state of every run.**
-/

namespace QssStorage

open Conc OrdMap

/-- The recorded size of what is stored under a key. -/
def Cell.recordedSize : Cell Object → ℕ
  | .record o => o.size
  | .garbage => 0

/-- The sum of the recorded sizes of the object records of a bucket. -/
def Store.bucketSize (s : Store) (bucket : Bytes) : ℕ := (s.tree bucket).sum fun _ cell => cell.recordedSize

/-- The usage counter of a bucket is that sum. -/
def Store.UsageExact (s : Store) (bucket : Bytes) : Prop :=
  s.usage.get bucket = some (.record (s.bucketSize bucket))

/-- `add_bucket_usage` would go below zero, and clamps. -/
def Clamps (bucket : Bytes) (delta : ℤ) (s : Store) : Prop :=
  ∃ current, (s.usage.get bucket).getD (.record 0) = .record current ∧ (current : ℤ) < -delta

theorem asI64_of_lt {n : ℤ} (hlo : -2 ^ 63 ≤ n) (hhi : n < 2 ^ 63) : asI64 n = n := by
  unfold asI64
  exact Int.bmod_eq_of_le (by omega) (by omega)

/-- The difference of two sizes that fit an `i64`. -/
theorem asI64_sub {n m : ℕ} (hn : n < 2 ^ 63) (hm : m < 2 ^ 63) : asI64 (asI64 n - asI64 m) = (n : ℤ) - m := by
  have hn' : asI64 n = n := asI64_of_lt (by omega) (by omega)
  have hm' : asI64 m = m := asI64_of_lt (by omega) (by omega)
  rw [hn', hm']
  exact asI64_of_lt (by omega) (by omega)

/-- A counter that covers what is taken off it moves exactly. -/
theorem shifted_sub {total n m : ℕ} (hm : m ≤ total) (hfit : total - m + n < 2 ^ 63) :
    shifted total ((n : ℤ) - m) = total - m + n := by
  unfold shifted
  split
  · omega
  · omega

section Records

variable {s s' : Store} {bucket key : Bytes} {old : Option Object}

/-- What the record under a key adds to the size of its bucket. -/
theorem share_recordedSize (hget : (s.tree bucket).get key = old.map Cell.record) :
    (s.tree bucket).share (fun _ cell => cell.recordedSize) key = recordedSize old := by
  unfold OrdMap.share
  rw [hget]
  cases old <;> rfl

theorem recordedSize_le (hget : (s.tree bucket).get key = old.map Cell.record) : recordedSize old ≤ s.bucketSize bucket := by
  have hsum := sum_erase (fun _ cell => cell.recordedSize) (s.tree bucket) key
  rw [share_recordedSize hget] at hsum
  unfold Store.bucketSize
  omega

/-- The size of a bucket after one record changed. -/
theorem bucketSize_update (new : Option Object) (hget : (s.tree bucket).get key = old.map Cell.record) :
    (new.elim ((s.tree bucket).erase key) fun o => (s.tree bucket).insert key (.record o)).sum
      (fun _ cell => cell.recordedSize) = s.bucketSize bucket - recordedSize old + recordedSize new := by
  have hle := recordedSize_le hget
  unfold Store.bucketSize at hle ⊢
  cases new with
  | none =>
    have hsum := sum_erase (fun _ cell => cell.recordedSize) (s.tree bucket) key
    rw [share_recordedSize hget] at hsum
    change ((s.tree bucket).erase key).sum _ = _ - _ + 0
    omega
  | some o =>
    have hsum := sum_insert (fun _ cell => cell.recordedSize) (s.tree bucket) key (.record o)
    rw [share_recordedSize hget] at hsum
    change ((s.tree bucket).insert key (.record o)).sum _ = _ - _ + o.size
    change _ = _ + o.size at hsum
    omega

/-- **One transaction on one record keeps the counter of every bucket exact.** -/
theorem RecordTx.usageExact {b : Bytes} {new : Option Object} {noting : List Event} (h : RecordTx b key new noting s s')
    (hexact : s.UsageExact bucket) (hfit : s.bucketSize bucket < 2 ^ 63) (hfit' : s'.bucketSize bucket < 2 ^ 63) :
    s'.UsageExact bucket := by
  obtain ⟨old, usage, hget, hcharged, rfl⟩ := h
  unfold Store.UsageExact at hexact ⊢
  by_cases hb : bucket = b
  · subst hb
    have htree : Store.bucketSize { s with
        trees := s.trees.insert bucket
          (new.elim ((s.tree bucket).erase key) fun o => (s.tree bucket).insert key (.record o))
        usage := usage, log := s.log ++ noting } bucket = s.bucketSize bucket - recordedSize old + recordedSize new := by
      rw [← bucketSize_update new hget]
      unfold Store.bucketSize Store.tree
      rw [get_insert_self, Option.getD_some]
    rw [htree] at hfit' ⊢
    have hle := recordedSize_le hget
    rcases hcharged with ⟨rfl, rfl, rfl⟩ | ⟨current, hcurrent, rfl⟩
    · exact hexact
    · rw [hexact, Option.getD_some] at hcurrent
      cases hcurrent
      change (s.usage.insert bucket _).get bucket = _
      rw [get_insert_self, asI64_sub (by omega) (by omega), shifted_sub hle hfit']
  · have htree : Store.tree { s with
        trees := s.trees.insert b (new.elim ((s.tree b).erase key) fun o => (s.tree b).insert key (.record o))
        usage := usage, log := s.log ++ noting } bucket = s.tree bucket := by
      unfold Store.tree
      rw [get_insert_of_ne _ _ hb]
    unfold Store.bucketSize at hexact ⊢
    rw [htree]
    rcases hcharged with ⟨-, -, rfl⟩ | ⟨current, -, rfl⟩
    · exact hexact
    · change (s.usage.insert b _).get bucket = _
      rw [get_insert_of_ne _ _ hb]
      exact hexact

/-- **An exact counter covers what a transaction on a record takes off it.** -/
theorem not_clamps (hexact : s.UsageExact bucket) (hfit : s.bucketSize bucket < 2 ^ 63)
    (hget : (s.tree bucket).get key = old.map Cell.record) {n : ℕ} (hn : n < 2 ^ 63) :
    ¬ Clamps bucket (asI64 (asI64 n - asI64 (recordedSize old))) s := by
  have hle := recordedSize_le hget
  rintro ⟨current, hcurrent, hlt⟩
  rw [hexact, Option.getD_some] at hcurrent
  cases hcurrent
  rw [asI64_sub hn (by omega)] at hlt
  omega

end Records

/-- The steps of a store keep the counter exact. -/
theorem RecordsMove.usageExact {s s' : Store} {bucket : Bytes} (h : RecordsMove s s') (hexact : s.UsageExact bucket)
    (hfit : s.bucketSize bucket < 2 ^ 63) (hfit' : s'.bucketSize bucket < 2 ^ 63) : s'.UsageExact bucket := by
  rcases h with ⟨-, husage, htrees⟩ | ⟨b, key, new, noting, htx⟩
  · unfold Store.UsageExact Store.bucketSize Store.tree at hexact ⊢
    rw [husage, htrees]
    exact hexact
  · exact htx.usageExact hexact hfit hfit'

/-- **The usage counter is the sum of the recorded sizes in every state of a run**, whatever
the operations, however they interleave and wherever they stop, as long as that sum stays
below `2 ^ 63`; no delete and no write takes off more than the counter holds. -/
theorem usage_exact_reachable (c : Config) {bucket : Bytes} {s0 : Store} (hexact : s0.UsageExact bucket)
    (hfit : s0.bucketSize bucket < 2 ^ 63) {w : Pool Store Choice ℕ Unit}
    (h : Pool.Reach (storeSystem c) (Pool.Into (storeSystem c) fun s => s.bucketSize bucket < 2 ^ 63)
      (Pool.start s0) w) :
    w.st.UsageExact bucket ∧
      (∀ key o, (w.st.tree bucket).get key = some (.record o) → ¬ Clamps bucket (asI64 (-asI64 o.size)) w.st) ∧
      ∀ key old, (w.st.tree bucket).get key = old.map Cell.record → ∀ n : ℕ, n < 2 ^ 63 →
        ¬ Clamps bucket (asI64 (asI64 n - asI64 (recordedSize old))) w.st := by
  have hinv : w.st.UsageExact bucket ∧ w.st.bucketSize bucket < 2 ^ 63 := by
    induction h with
    | refl => exact ⟨hexact, hfit⟩
    | step m hreach hinto hm ih =>
      have hfit' := hinto _ hm
      exact ⟨(storeStep_of_reach c hreach hm).records.usageExact ih.1 ih.2 hfit', hfit'⟩
  refine ⟨hinv.1, fun key o hget => ?_, fun key old hget n hn => not_clamps hinv.1 hinv.2 hget hn⟩
  have hold : (w.st.tree bucket).get key = (some o).map Cell.record := hget
  have hdelete := not_clamps (n := 0) hinv.1 hinv.2 hold (by norm_num)
  have hzero : asI64 ((0 : ℕ) : ℤ) = 0 := rfl
  rw [hzero, zero_sub] at hdelete
  exact hdelete

/-- An empty bucket whose usage is counted. -/
def countedBucket : Store :=
  { Store.empty with buckets := Store.empty.buckets.insert [98] (.record (.bucket ⟨0, [98]⟩))
                     usage := Store.empty.usage.insert [98] (.record 0)
                     trees := Store.empty.trees.insert [98] ∅ }

/-- An object is written, and a delete of it is stopped before its commit while a shorter one
is written over it. -/
def overwritten : List (Move StoreOp Choice) :=
  .spawn (.putInline [98] [107] abc) :: List.replicate 2 (.run 0 steady) ++
    [.spawn (.delete [98] [107]), .spawn (.putInline [98] [107] [120]), .run 2 steady, .stop 1, .run 2 steady]

/-- The counter went from 0 to 3 and then to 1. -/
theorem usage_after_overwrite : ∃ w,
    Pool.execInto (storeSystem abcConfig) (fun s => s.bucketSize [98] < 2 ^ 63) overwritten
      (Pool.start countedBucket) = some w ∧ w.st.bucketSize [98] = 1 ∧ w.st.UsageExact [98] := by
  have hrun : (Pool.execInto (storeSystem abcConfig) (fun s => s.bucketSize [98] < 2 ^ 63) overwritten
      (Pool.start countedBucket)).map (fun w => w.st.bucketSize [98]) = some 1 := by decide +kernel
  obtain ⟨w, hw, hsize⟩ := Option.map_eq_some_iff.1 hrun
  exact ⟨w, hw, hsize, (usage_exact_reachable abcConfig (show countedBucket.UsageExact [98] from rfl) (by decide +kernel)
    (Pool.Reach.refl.execInto (fun _ _ _ h => h) hw)).1⟩

end QssStorage
