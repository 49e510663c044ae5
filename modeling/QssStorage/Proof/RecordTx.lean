import QssStorage.Spec.ObjectPath

/-!
# Transactions on object records

A record is written, or taken away, in one transaction with the usage of its bucket. What
either does is said once, as a relation between the store before and after it (`RecordTx`),
and what depends on a record being written depends on that.
-/

namespace QssStorage

variable {s s' : Store} {bucket key : Bytes} {o : Object} {old new : Option Object} {noting : List Event} {e : Err}

/-- What is stored under a key. -/
def recordAt (bucket key : Bytes) (s : Store) : Option (Cell Object) := (s.tree bucket).get key

/-- What a record adds to the size of its bucket. -/
def recordedSize (o : Option Object) : ℕ := (o.map Object.size).getD 0

/-- The counter after `add_bucket_usage`. -/
def shifted (current : ℕ) (delta : ℤ) : ℕ :=
  if 0 ≤ delta then min (current + delta.toNat) (2 ^ 64 - 1) else current - (-delta).toNat

/-- The counter of a bucket moves by what `new` is larger than `old`. Removing what is not
there does not touch it. -/
def Charged (bucket : Bytes) (old new : Option Object) (usage usage' : OrdMap Bytes (Cell ℕ)) : Prop :=
  (old = none ∧ new = none ∧ usage' = usage) ∨
  ∃ current, (usage.get bucket).getD (.record 0) = .record current ∧ usage' = usage.insert bucket
      (.record (shifted current (asI64 (asI64 (recordedSize new) - asI64 (recordedSize old)))))

/-- What is under `key` was `old` and becomes `new`, the usage of the bucket follows, and
`noting` is noted. -/
def Replaces (bucket key : Bytes) (old new : Option Object) (noting : List Event) (s s' : Store) : Prop :=
  ∃ usage, (s.tree bucket).get key = old.map Cell.record ∧ Charged bucket old new s.usage usage ∧
    s' = { s with trees := s.trees.insert bucket
                    (new.elim ((s.tree bucket).erase key) fun o => (s.tree bucket).insert key (.record o))
                  usage := usage, log := s.log ++ noting }

/-- **A transaction on one object record.** -/
def RecordTx (bucket key : Bytes) (new : Option Object) (noting : List Event) (s s' : Store) : Prop :=
  ∃ old, Replaces bucket key old new noting s s'

/-- Afterwards the key holds `new`. -/
theorem RecordTx.recordAt_eq (h : RecordTx bucket key new noting s s') :
    recordAt bucket key s' = new.map Cell.record := by
  obtain ⟨old, usage, -, -, rfl⟩ := h
  cases new <;> simp [recordAt, Store.tree]

/-! ## What the transactions do -/

theorem replaceObject_ok (h : replaceObject bucket key o s = .ok (old, s')) :
    (s.tree bucket).get key = old.map Cell.record ∧
      s' = s.setTree bucket ((s.tree bucket).insert key (.record o)) := by
  unfold replaceObject at h
  split at h
  · rename_i hget; cases h; exact ⟨hget, rfl⟩
  · cases h
  · rename_i hget; cases h; exact ⟨hget, rfl⟩

theorem takeObject_ok (h : takeObject bucket key s = .ok (old, s')) :
    (s.tree bucket).get key = old.map Cell.record ∧ s' = s.setTree bucket ((s.tree bucket).erase key) := by
  unfold takeObject at h
  split at h
  · rename_i hget; cases h; exact ⟨hget, by rw [OrdMap.erase_of_get_eq_none hget]⟩
  · cases h
  · rename_i hget; cases h; exact ⟨hget, rfl⟩

theorem addBucketUsage_ok {delta : ℤ} {n : ℕ} (h : addBucketUsage bucket delta s = .ok (n, s')) :
    ∃ current, (s.usage.get bucket).getD (.record 0) = .record current ∧
      s' = { s with usage := s.usage.insert bucket (.record (shifted current delta)) } := by
  unfold addBucketUsage at h
  split at h
  · cases h
  · rename_i current hcurrent; cases h; exact ⟨current, hcurrent, rfl⟩

theorem addBucketUsage_error {delta : ℤ} (h : addBucketUsage bucket delta s = .error e) :
    s.usage.get bucket = some .garbage := by
  unfold addBucketUsage at h
  split at h
  · rename_i hg
    cases hu : s.usage.get bucket with
    | none => rw [hu] at hg; cases hg
    | some cell => rw [hu, Option.getD_some] at hg; rw [hg]
  · cases h

/-- A record that is written. -/
theorem replaceObjectTx_ok (h : replaceObjectTx bucket key o noting s = .ok (old, s')) :
    Replaces bucket key old (some o) noting s s' := by
  unfold replaceObjectTx at h
  split at h
  · cases h
  rename_i hr
  dsimp only at h
  split at h
  · cases h
  rename_i hu
  cases h
  obtain ⟨hget, rfl⟩ := replaceObject_ok hr
  obtain ⟨current, hcurrent, rfl⟩ := addBucketUsage_ok hu
  exact ⟨_, hget, .inr ⟨current, hcurrent, rfl⟩, rfl⟩

/-- A record that is taken away. -/
theorem deleteObjectTx_ok (h : deleteObjectTx bucket key s = .ok (old, s')) :
    Replaces bucket key old none [] s s' := by
  unfold deleteObjectTx at h
  split at h
  · cases h
  · rename_i ht
    cases h
    obtain ⟨hget, rfl⟩ := takeObject_ok ht
    exact ⟨s.usage, hget, .inl ⟨rfl, rfl, rfl⟩, by rw [List.append_nil]; rfl⟩
  rename_i o s1 ht
  split at h
  · cases h
  rename_i hu
  cases h
  obtain ⟨hget, rfl⟩ := takeObject_ok ht
  obtain ⟨current, hcurrent, rfl⟩ := addBucketUsage_ok hu
  have hdelta : asI64 (-asI64 o.size) = asI64 (asI64 (recordedSize none) - asI64 (recordedSize (some o))) := by
    rw [show asI64 (recordedSize none) = 0 from rfl, zero_sub]
    rfl
  exact ⟨_, hget, .inr ⟨current, hcurrent, rfl⟩, by rw [List.append_nil, ← hdelta]; rfl⟩

/-- A transaction fails on a record, or on a counter, that does not decode. -/
def Undecodable (bucket key : Bytes) (s : Store) : Prop :=
  (s.tree bucket).get key = some .garbage ∨ s.usage.get bucket = some .garbage

theorem replaceObjectTx_error (h : replaceObjectTx bucket key o noting s = .error e) : Undecodable bucket key s := by
  unfold replaceObjectTx at h
  split at h
  · rename_i hr
    unfold replaceObject at hr
    split at hr
    · cases hr
    · rename_i hg; exact .inl hg
    · cases hr
  rename_i hr
  dsimp only at h
  split at h
  · rename_i hu
    have hg := addBucketUsage_error hu
    rw [(replaceObject_ok hr).2] at hg
    exact .inr hg
  · cases h

theorem deleteObjectTx_error (h : deleteObjectTx bucket key s = .error e) : Undecodable bucket key s := by
  unfold deleteObjectTx at h
  split at h
  · rename_i hr
    unfold takeObject at hr
    split at hr
    · cases hr
    · rename_i hg; exact .inl hg
    · cases hr
  · cases h
  rename_i hr
  split at h
  · rename_i hu
    have hg := addBucketUsage_error hu
    rw [(takeObject_ok hr).2] at hg
    exact .inr hg
  · cases h

end QssStorage
