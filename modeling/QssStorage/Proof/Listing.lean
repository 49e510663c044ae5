import QssStorage.Data.Paging
import QssStorage.Proof.Pairing
import QssStorage.Spec.Listing

/-!
# A listing, page by page

A client that lists a bucket follows the token of every truncated page. What it is shown is
compared with the listing itself, which names no page: the matching records whose rest holds no
delimiter, and the common prefixes of the others.

* `pages_complete`: **the pages of either version are the listing.**
-/

namespace QssStorage

open Paging List

/-! ## What is listed -/

/-- What a client asks to be listed. -/
structure ListQuery where
  delimiter : Option Bytes
  pre : Option Bytes
  startAfter : Option Bytes
deriving DecidableEq

namespace ListQuery

variable (q : ListQuery)
variable {e : Bytes × Object} {x : Bytes × Cell Object} {t : OrdMap Bytes (Cell Object)}

/-- The key matches the prefix. -/
def Matches (key : Bytes) : Prop := ∀ p ∈ q.pre, p <+: key

instance (key : Bytes) : Decidable (q.Matches key) := inferInstanceAs (Decidable (∀ p ∈ q.pre, p <+: key))

/-- The records to list: those that match, behind the start. -/
def listed (t : OrdMap Bytes (Cell Object)) : List (Bytes × Object) :=
  (t.entries.filter fun e => q.Matches e.1 ∧ ∀ a ∈ q.startAfter, a < e.1).filterMap listedEntry

/-- The common prefix a key belongs to: up to the first delimiter behind the prefix asked for. -/
def rolled (key : Bytes) : Option Bytes :=
  match q.delimiter.filter (· ≠ []) with
  | none => none
  | some d =>
    let tail := afterPrefix (q.pre.getD []) key
    (Lexer.find d tail).map fun pos => q.pre.getD [] ++ tail.take (pos + d.length)

/-- The objects the listing shows. -/
def objects (t : OrdMap Bytes (Cell Object)) : List ObjectDto :=
  ((q.listed t).filter fun e => (q.rolled e.1).isNone).map objectDto

variable {q}

theorem Matches.getD {key : Bytes} (h : q.Matches key) : q.pre.getD [] <+: key := by
  cases hp : q.pre with
  | none => exact List.nil_prefix
  | some p => exact h p (by rw [hp]; rfl)

theorem afterPrefix_append (pre tail : Bytes) : afterPrefix pre (pre ++ tail) = tail := by
  unfold afterPrefix
  rw [if_pos (prefix_append pre tail), drop_left]

/-- A common prefix is a prefix. -/
theorem prefix_of_rolled {key g : Bytes} (hkey : q.Matches key) (h : q.rolled key = some g) : g <+: key := by
  obtain ⟨tail, htail⟩ := hkey.getD
  unfold rolled at h
  split at h
  · cases h
  rename_i d _
  rw [← htail, afterPrefix_append] at h
  obtain ⟨pos, -, rfl⟩ := Option.map_eq_some_iff.1 h
  rw [← htail]
  exact prefix_append_right_inj _ |>.2 (List.take_prefix _ _)

/-- The keys under a common prefix belong to it. -/
theorem rolled_of_starts {key key' g : Bytes} (hkey : q.Matches key) (h : q.rolled key = some g) (hg : g <+: key') :
    q.rolled key' = some g := by
  obtain ⟨tail, htail⟩ := hkey.getD
  unfold rolled at h ⊢
  split at h
  · cases h
  rename_i d hd
  rw [← htail, afterPrefix_append] at h
  obtain ⟨pos, hpos, rfl⟩ := Option.map_eq_some_iff.1 h
  obtain ⟨rest, rfl⟩ := hg
  have hown := Lexer.find_own rest hpos
  have hlen : (tail.take (pos + d.length)).length = pos + d.length := by
    rw [length_take]
    have := Lexer.find_le hpos
    omega
  rw [append_assoc, afterPrefix_append]
  simp only [hown, Option.map_some, Option.some.injEq, append_cancel_left_eq]
  exact take_left' hlen

theorem rolled_iff_starts {key key' g : Bytes} (hkey : q.Matches key) (h : q.rolled key = some g) (hkey' : q.Matches key') :
    g <+: key' ↔ q.rolled key' = some g :=
  ⟨rolled_of_starts hkey h, prefix_of_rolled hkey'⟩

/-- Keys in order are in the order of what they are shown as. -/
theorem ascending_of_lt {e e' : Bytes × Object} (he : q.Matches e.1) (he' : q.Matches e'.1) (hlt : e.1 < e'.1) :
    Ascending (fun e : Bytes × Object => q.rolled e.1) Prod.fst e e' := by
  have hshown : ∀ k, q.Matches k → (q.rolled k).getD k <+: k := by
    intro k hk
    cases hr : q.rolled k with
    | none => exact prefix_refl k
    | some g => exact prefix_of_rolled hk hr
  have hle : (q.rolled e.1).getD e.1 < e'.1 := lt_of_le_of_lt (le_of_starts (hshown e.1 he)) hlt
  rcases lt_or_ge ((q.rolled e.1).getD e.1) ((q.rolled e'.1).getD e'.1) with h | h
  · exact .inl h
  -- what the later key is shown as lies on the earlier key: they share a group
  have hpre : (q.rolled e'.1).getD e'.1 <+: e.1 :=
    (prefix_of_between (hshown e'.1 he') h hle.le).trans (hshown e.1 he)
  cases hr : q.rolled e'.1 with
  | none =>
    rw [hr, Option.getD_none] at hpre
    exact absurd (le_of_starts hpre) (not_le.2 hlt)
  | some g =>
    rw [hr, Option.getD_some] at hpre
    have hsame := rolled_of_starts he' hr hpre
    have hsome : q.rolled e.1 ≠ none := by rw [hsame]; exact Option.some_ne_none g
    exact .inr ⟨hsame.trans hr.symm, hsome⟩

/-! ## The records behind a start -/

variable (q) in
/-- The same query behind another start. -/
def behind (a : Option Bytes) : ListQuery := { q with startAfter := a }

variable (q) in
/-- The common prefix of a record. -/
def group (e : Bytes × Object) : Option Bytes := q.rolled e.1

/-- What a listing sees of an entry. -/
theorem listedEntry_eq_some : listedEntry x = some e ↔ x = (e.1, .record e.2) ∧ validUtf8 e.1 = true := by
  obtain ⟨key, cell⟩ := x
  obtain ⟨key', o⟩ := e
  unfold listedEntry
  cases cell with
  | garbage => simp
  | record o' =>
    dsimp only
    split
    · rename_i hutf
      simp only [Option.some.injEq, Prod.mk.injEq, Cell.record.injEq]
      exact ⟨fun h => ⟨h, h.1 ▸ hutf⟩, fun h => h.1⟩
    · rename_i hutf
      simp only [reduceCtorEq, Prod.mk.injEq, Cell.record.injEq, false_iff]
      rintro ⟨⟨rfl, -⟩, hutf'⟩
      exact hutf hutf'

theorem fst_of_listedEntry (h : listedEntry x = some e) : e.1 = x.1 := by
  rw [(listedEntry_eq_some.1 h).1]

theorem mem_listed_iff : e ∈ q.listed t ↔
    t.get e.1 = some (.record e.2) ∧ validUtf8 e.1 = true ∧ q.Matches e.1 ∧ ∀ a ∈ q.startAfter, a < e.1 := by
  unfold listed
  rw [mem_filterMap]
  constructor
  · rintro ⟨x, hx, he⟩
    obtain ⟨rfl, hutf⟩ := listedEntry_eq_some.1 he
    obtain ⟨hget, hmatch⟩ := mem_filter.1 hx
    exact ⟨OrdMap.mem_entries.1 hget, hutf, of_decide_eq_true hmatch⟩
  · rintro ⟨hget, hutf, hmatch⟩
    exact ⟨_, mem_filter.2 ⟨OrdMap.mem_entries.2 hget, decide_eq_true hmatch⟩, listedEntry_eq_some.2 ⟨rfl, hutf⟩⟩

theorem mem_listed (h : e ∈ q.listed t) : q.Matches e.1 ∧ (∀ a ∈ q.startAfter, a < e.1) ∧ validUtf8 e.1 = true := by
  obtain ⟨-, hutf, hmatch, hafter⟩ := mem_listed_iff.1 h
  exact ⟨hmatch, hafter, hutf⟩

/-- The keys of a listing ascend. -/
theorem listed_sorted (t : OrdMap Bytes (Cell Object)) : (q.listed t).Pairwise fun e e' => e.1 < e'.1 := by
  refine List.Pairwise.filterMap listedEntry ?_ (t.sorted.filter _)
  intro x y hlt e he e' he'
  rw [fst_of_listedEntry he, fst_of_listedEntry he']
  exact hlt

end ListQuery

/-- In an ascending list the entries up to `a` come first. -/
theorem dropWhile_eq_filter {V : Type} (a : Bytes) : ∀ {l : List (Bytes × V)}, l.Pairwise (fun e e' => e.1 < e'.1) →
    l.dropWhile (fun e => e.1 ≤ a) = l.filter fun e => a < e.1 := by
  intro l
  induction l with
  | nil => intro _; rfl
  | cons e l ih =>
    intro hl
    obtain ⟨hfirst, hrest⟩ := pairwise_cons.1 hl
    by_cases h : e.1 ≤ a
    · rw [dropWhile_cons_of_pos (by simpa using h), filter_cons_of_neg (by simpa using h), ih hrest]
    rw [dropWhile_cons_of_neg (by simpa using h), filter_cons_of_pos (by simpa using h)]
    have hall : ∀ x ∈ l, decide (a < x.1) = true := by
      intro x hx
      exact decide_eq_true ((not_le.1 h).trans (hfirst x hx))
    rw [filter_eq_self.2 hall]

/-- A token behind the start is where the page goes on. -/
theorem ctsa_of_lt {start : Option Bytes} {key : Bytes} (h : ∀ a ∈ start, a < key) : ctsa (some key) start = some key := by
  cases start with
  | none => rfl
  | some a => exact congrArg some (max_eq_left (h a rfl).le)

/-- Behind the later of the two is behind both. -/
theorem ctsa_lt_iff {token start : Option Bytes} {key : Bytes} :
    (∀ a ∈ ctsa token start, a < key) ↔ (∀ a ∈ token, a < key) ∧ ∀ a ∈ start, a < key := by
  cases token with
  | none => simp [ctsa]
  | some b =>
    cases start with
    | none | some a => simp [ctsa]

/-- **What a page is taken from.** -/
theorem rangeFilter_eq (t : OrdMap Bytes (Cell Object)) (q : ListQuery) (start token : Option Bytes) :
    rangeFilter t start q.pre token = (q.behind (ctsa token start)).listed t := by
  obtain ⟨delimiter, pre, start'⟩ := q
  unfold rangeFilter ListQuery.listed ListQuery.behind ListQuery.Matches
  generalize ctsa token start = after
  dsimp only
  congr 1
  have hsorted : ∀ f, (t.entries.filter f).Pairwise fun e e' => e.1 < e'.1 := fun f => t.sorted.filter f
  cases pre with
  | none =>
    cases after with
    | none => simp
    | some a =>
      refine filter_congr fun e _ => ?_
      have hstep : a ++ [0] ≤ e.1 ↔ a < e.1 := append_bot_le
      simp [hstep]
  | some p =>
    cases after with
    | none => simp
    | some a =>
      simp only [Option.mem_def, Option.some.injEq, forall_eq']
      split
      · -- the start is behind every key with the prefix
        rename_i h
        symm
        rw [filter_eq_nil_iff]
        rintro e - he
        rw [decide_eq_true_eq] at he
        exact h.2 (prefix_of_between he.1 h.1.le he.2.le)
      · split
        · rename_i hlt
          refine filter_congr fun e _ => ?_
          have hbehind : p <+: e.1 → a < e.1 := fun hpre => lt_of_lt_of_le hlt (le_of_starts hpre)
          simp only [decide_eq_decide]
          exact ⟨fun h => ⟨h, hbehind h⟩, fun h => h.1⟩
        · rw [dropWhile_eq_filter a (hsorted _), filter_filter]
          refine filter_congr fun e _ => ?_
          simp [and_comm]

/-- **`range_filter` yields the records with the prefix behind the token and the start**, whatever the
order of the three, in ascending order and each once. -/
theorem rangeFilter_yields (t : OrdMap Bytes (Cell Object)) (startAfter pre token : Option Bytes) :
    (rangeFilter t startAfter pre token).Pairwise (fun e e' => e.1 < e'.1) ∧
      ∀ key o, (key, o) ∈ rangeFilter t startAfter pre token ↔
        (t.get key = some (.record o) ∧ validUtf8 key = true) ∧ (∀ p ∈ pre, p <+: key) ∧
          (∀ a ∈ token, a < key) ∧ ∀ a ∈ startAfter, a < key := by
  have hlisted := rangeFilter_eq t ⟨none, pre, none⟩ startAfter token
  dsimp only at hlisted
  rw [hlisted]
  refine ⟨ListQuery.listed_sorted t, fun key o => ?_⟩
  rw [ListQuery.mem_listed_iff, ← ctsa_lt_iff, and_assoc]
  exact Iff.rfl

namespace ListQuery

variable {q : ListQuery} {t : OrdMap Bytes (Cell Object)}

/-- A later start leaves the records behind it. -/
theorem listed_behind {key : Bytes} (h : ∀ a ∈ q.startAfter, a < key) :
    (q.behind (some key)).listed t = (q.listed t).filter fun e => key < e.1 := by
  have hskip : ∀ x : Bytes × Cell Object,
      (listedEntry x).filter (fun e => decide (key < e.1)) = if decide (key < x.1) then listedEntry x else none := by
    intro x
    cases hx : listedEntry x with
    | none => simp
    | some e => simp [Option.filter, fst_of_listedEntry hx]
  unfold listed
  rw [filter_filterMap]
  simp only [hskip]
  rw [← filterMap_filter, filter_filter]
  congr 1
  refine filter_congr fun e _ => ?_
  have hbehind : key < e.1 → ∀ a ∈ q.startAfter, a < e.1 := fun hlt a ha => (h a ha).trans hlt
  simp only [behind, Matches, Option.mem_def, Option.some.injEq, forall_eq', ← Bool.decide_and, decide_eq_decide]
  exact ⟨fun ⟨hm, hlt⟩ => ⟨hlt, hm, hbehind hlt⟩, fun ⟨hlt, hm, _⟩ => ⟨hm, hlt⟩⟩

/-- The records behind the last one of a page are those it left. -/
theorem listed_rest {taken left : List (Bytes × Object)} (h : q.listed t = taken ++ left) {e : Bytes × Object}
    (he : taken.getLast? = some e) : (q.behind (some e.1)).listed t = left := by
  have hmem : e ∈ q.listed t := h ▸ mem_append_left _ (mem_of_getLast? he)
  have hsorted := q.listed_sorted t
  rw [h] at hsorted
  obtain ⟨htaken, -, hacross⟩ := pairwise_append.1 hsorted
  obtain ⟨before, rfl⟩ := getLast?_eq_some_iff.1 he
  have hupto : ∀ x ∈ before ++ [e], ¬ decide (e.1 < x.1) = true := by
    intro x hx
    rw [decide_eq_true_eq, not_lt]
    rcases mem_append.1 hx with hx | hx
    · exact ((pairwise_append.1 htaken).2.2 x hx e mem_cons_self).le
    · rw [mem_singleton.1 hx]
  have hbehind : ∀ x ∈ left, decide (e.1 < x.1) = true := fun x hx =>
    decide_eq_true (hacross e (mem_append_right _ mem_cons_self) x hx)
  rw [listed_behind (mem_listed hmem).2.1, h, filter_append, filter_eq_nil_iff.2 hupto, nil_append,
    filter_eq_self.2 hbehind]

/-! ## One page -/

/-- What is shown: an object, or a common prefix. -/
abbrev Shown := Item (Bytes × Object) Bytes

variable (q) in
/-- The page that takes `taken` after a record of the group `g`, and leaves `left`. -/
def pageOf (g : Option Bytes) (taken left : List (Bytes × Object)) : DelimitedPage :=
  let items := roll q.group g taken
  ⟨(items.filterMap Item.entry).map objectDto, items.filterMap Item.rolled, !left.isEmpty, taken.getLast?.map Prod.fst⟩

/-- What the loop goes on with after a page. -/
def append (a b : DelimitedPage) : DelimitedPage :=
  ⟨a.objects ++ b.objects, a.commonPrefixes ++ b.commonPrefixes, b.truncated, b.resumeAfter.or a.resumeAfter⟩

/-- A group is one of a matching key. -/
def Groups (q : ListQuery) (g : Option Bytes) : Prop := ∀ x ∈ g, ∃ key, q.Matches key ∧ q.rolled key = some x

/-- The test of the loop: inside the group that was rolled up. -/
theorem any_prefix_iff {g : Option Bytes} (hg : Groups q g) {key : Bytes} (hkey : q.Matches key) :
    g.any (· <+: key) = true ↔ g ≠ none ∧ q.rolled key = g := by
  cases g with
  | none => simp
  | some x =>
    obtain ⟨key', hkey', hx⟩ := hg x rfl
    simp [rolled_iff_starts hkey' hx hkey]

theorem getLast?_cons_fst (e : Bytes × Object) (l : List (Bytes × Object)) (r : Option Bytes) :
    (((e :: l).getLast?).map Prod.fst).or r = (l.getLast?.map Prod.fst).or (some e.1) := by
  rw [getLast?_cons]
  cases l.getLast? <;> rfl

section Cons

variable {g : Option Bytes} {e : Bytes × Object} (taken left : List (Bytes × Object)) (p : DelimitedPage)

theorem append_inside (hg : g ≠ none) (he : q.group e = g) :
    append { p with resumeAfter := some e.1 } (q.pageOf g taken left) = append p (q.pageOf g (e :: taken) left) := by
  obtain ⟨x, rfl⟩ := Option.ne_none_iff_exists'.1 hg
  simp [append, pageOf, roll, he, getLast?_cons_fst]

theorem append_group {x : Bytes} (hg : g ≠ some x) (he : q.group e = some x) :
    append { p with commonPrefixes := p.commonPrefixes ++ [x], resumeAfter := some e.1 } (q.pageOf (some x) taken left) =
      append p (q.pageOf g (e :: taken) left) := by
  simp [append, pageOf, roll, he, hg, getLast?_cons_fst, filterMap_cons]

theorem append_single (he : q.group e = none) :
    append { p with objects := p.objects ++ [objectDto e], resumeAfter := some e.1 } (q.pageOf none taken left) =
      append p (q.pageOf g (e :: taken) left) := by
  simp [append, pageOf, roll, he, getLast?_cons_fst, filterMap_cons]

end Cons

/-- The loop takes the entries of `Paging.page`, by induction on the entries. -/
theorem collectFrom_eq {d : Bytes} (hd : q.delimiter.filter (· ≠ []) = some d) (n : ℕ) :
    ∀ (l : List (Bytes × Object)) (items : ℕ) (g : Option Bytes) (p : DelimitedPage), (∀ e ∈ l, q.Matches e.1) →
      items ≤ n → Groups q g → p.truncated = false → collectFrom (q.pre.getD []) d n l items g p =
          append p (q.pageOf g (page q.group (n - items) g l).1 (page q.group (n - items) g l).2) := by
  intro l
  induction l with
  | nil =>
    intro items g p _ _ _ hp
    cases p
    cases hp
    simp [collectFrom, append, pageOf, page, roll]
  | cons e l ih =>
    intro items g p hl hitems hg hp
    obtain ⟨key, o⟩ := e
    have hkey : q.Matches key := hl _ mem_cons_self
    have hrest : ∀ e ∈ l, q.Matches e.1 := fun e he => hl e (mem_cons_of_mem _ he)
    unfold collectFrom
    by_cases hin : g.any (· <+: key) = true
    · obtain ⟨hsome, hsame⟩ := (any_prefix_iff hg hkey).1 hin
      have hgroup : q.group (key, o) = g := hsame
      rw [if_pos hin, ih items g { p with resumeAfter := some key } hrest hitems hg hp, page_same hsome hgroup]
      exact append_inside _ _ p hsome hgroup
    have hother : g = none ∨ q.group (key, o) ≠ g := by
      by_cases hnone : g = none
      · exact .inl hnone
      · exact .inr fun h => hin ((any_prefix_iff hg hkey).2 ⟨hnone, h⟩)
    rw [if_neg hin]
    by_cases hfull : items = n
    · -- the page is full, and the record starts an item of its own
      rw [if_pos hfull, hfull, Nat.sub_self, page_zero hother]
      cases p
      simp [append, pageOf, roll]
    have hroom : n - items = n - (items + 1) + 1 := by omega
    have hgroup : q.group (key, o) = (Lexer.find d (afterPrefix (q.pre.getD []) key)).map fun pos =>
        q.pre.getD [] ++ (afterPrefix (q.pre.getD []) key).take (pos + d.length) := by
      simp only [group, rolled, hd]
    rw [if_neg hfull, hroom, page_succ hother]
    dsimp only
    cases hfind : Lexer.find d (afterPrefix (q.pre.getD []) key) with
    | none =>
      rw [hfind, Option.map_none] at hgroup
      have hnone : Groups q none := fun x hx => by cases hx
      rw [hgroup]
      refine Eq.trans ?_ (append_single _ _ p hgroup)
      exact ih (items + 1) none _ hrest (by omega) hnone hp
    | some pos =>
      rw [hfind, Option.map_some] at hgroup
      have hreal : Groups q (q.group (key, o)) := fun x hx => ⟨key, hkey, hx⟩
      have hne := ne_some_of_other hgroup hother
      rw [hgroup] at hreal ⊢
      refine Eq.trans ?_ (append_group _ _ p hne hgroup)
      exact ih (items + 1) _ _ hrest (by omega) hreal hp

theorem filterMap_entry_single (l : List (Bytes × Object)) : (l.map Item.single).filterMap (Item.entry : Shown → _) = l := by
  rw [filterMap_map]
  exact filterMap_some

/-- **A page is the first `n` items of the records it is taken from.** -/
theorem listPage_eq {l : List (Bytes × Object)} (hl : ∀ e ∈ l, q.Matches e.1) (n : ℕ) :
    listPage l q.pre q.delimiter n = q.pageOf none (page q.group n none l).1 (page q.group n none l).2 := by
  unfold listPage
  cases hd : q.delimiter.filter (· ≠ []) with
  | some d =>
    have hnone : Groups q none := fun x hx => by cases hx
    refine (collectFrom_eq hd n l 0 none _ hl (Nat.zero_le n) hnone rfl).trans ?_
    simp [append]
  | none =>
    have hgroup : ∀ e, q.group e = none := fun e => by simp only [group, rolled, hd]
    obtain ⟨hpage, hroll⟩ : page q.group n none l = (l.take n, l.drop n) ∧ roll q.group none (l.take n) = _ :=
      ⟨page_alone hgroup l n, roll_alone hgroup _⟩
    have hlen : ((l.map objectDto).take (n + 1)).length = min (n + 1) l.length := by simp
    have htruncated : (n < min (n + 1) l.length) ↔ l.drop n ≠ [] := by
      rw [Ne, drop_eq_nil_iff]
      omega
    have hobjects : (if n < min (n + 1) l.length then ((l.map objectDto).take (n + 1)).dropLast
        else (l.map objectDto).take (n + 1)) = (l.take n).map objectDto := by
      split
      · have hcut : min (min (n + 1) l.length - 1) (n + 1) = n := by omega
        rw [dropLast_eq_take, hlen, take_take, hcut, map_take]
      · have hshort : l.length ≤ n := by omega
        rw [take_of_length_le (by simp; omega), take_of_length_le hshort]
    unfold plainPage pageOf
    simp only [hpage, hroll, hlen, hobjects, decide_eq_true_eq]
    have hflag : decide (n < min (n + 1) l.length) = !(l.drop n).isEmpty := by
      rw [Bool.eq_iff_iff]
      simp [htruncated]
    have hnone : ((l.take n).map Item.single).filterMap (Item.rolled : Shown → Option Bytes) = [] := by
      rw [filterMap_map]
      exact filterMap_eq_nil_iff.2 fun _ _ => rfl
    rw [hflag, filterMap_entry_single, hnone, getLast?_map, Option.map_map]
    rfl

end ListQuery

/-! ## The client -/

/-- What a client takes from an answer. -/
structure ShownPage where
  contents : List ObjectDto
  prefixes : List Bytes
  truncated : Bool
deriving DecidableEq

/-- The keys and common prefixes of a page. -/
def ShownPage.labels (p : ShownPage) : List Bytes := p.contents.map ObjectDto.key ++ p.prefixes

/-- A request of the first version. Where the answer names no marker to go on with, the client takes the
last key it was shown, as it does with every server of this interface. -/
def askV1 (t : OrdMap Bytes (Cell Object)) (q : ListQuery) (size : Option ℤ) (marker : Option Bytes) :
    Option (ShownPage × Option Bytes) :=
  let answer := listObjects t ⟨q.delimiter, q.pre, marker, size⟩
  some (⟨answer.contents, answer.commonPrefixes.getD [], answer.isTruncated⟩,
    answer.nextMarker.or (answer.contents.getLast?.map ObjectDto.key))

/-- A request of the second version; `none` if it is refused. -/
def askV2 (t : OrdMap Bytes (Cell Object)) (q : ListQuery) (size : Option ℤ) (token : Option (List Char)) :
    Option (ShownPage × Option (List Char)) :=
  match listObjectsV2 t ⟨q.delimiter, q.pre, q.startAfter, size, token⟩ with
  | .error _ => none
  | .ok answer =>
    some (⟨answer.contents, answer.commonPrefixes.getD [], answer.isTruncated⟩, answer.nextContinuationToken)

/-- The pages a client is shown that follows the tokens until a page is not truncated; `none` if it is
refused or has not come to such a page within `fuel` requests. -/
def follow {τ : Type} (ask : Option ℤ → τ → Option (ShownPage × τ)) (sizes : ℕ → Option ℤ) :
    ℕ → ℕ → τ → Option (List ShownPage)
  | 0, _, _ => none
  | fuel + 1, k, token =>
    match ask (sizes k) token with
    | none => none
    | some (shown, next) => if shown.truncated then (follow ask sizes fuel (k + 1) next).map (shown :: ·) else some [shown]

open ListQuery in
/-- The page that shows the items. -/
def ShownPage.of (items : List ListQuery.Shown) (truncated : Bool) : ShownPage :=
  ⟨(items.filterMap Item.entry).map objectDto, items.filterMap Item.rolled, truncated⟩

/-- The pages show the items in turn, from the page number `k` on. -/
inductive Paged (sizes : ℕ → Option ℤ) : ℕ → List ListQuery.Shown → List ShownPage → Prop
  | last {k : ℕ} {items : List ListQuery.Shown} (h : items.length ≤ keyCount (sizes k)) :
      Paged sizes k items [.of items false]
  | more {k : ℕ} {items rest : List ListQuery.Shown} {pages : List ShownPage} (h : items.length ≤ keyCount (sizes k))
      (hrest : rest ≠ []) (hpages : Paged sizes (k + 1) rest pages) : Paged sizes k (items ++ rest) (.of items true :: pages)

section Follow

variable {q : ListQuery} {t : OrdMap Bytes (Cell Object)}

/-- The page a request behind `a` is answered with. -/
def pageBehind (q : ListQuery) (t : OrdMap Bytes (Cell Object)) (a : Option Bytes) (n : ℕ) :
    List (Bytes × Object) × List (Bytes × Object) :=
  page q.group n none ((q.behind a).listed t)

/-- The token stands for the start `a`: the requests are answered from the records behind it, and the next
token stands for the last record of the page. -/
def Stands {τ : Type} (ask : Option ℤ → τ → Option (ShownPage × τ)) (q : ListQuery) (t : OrdMap Bytes (Cell Object))
    (R : τ → Option Bytes → Prop) : Prop :=
  ∀ size token a, R token a → ∃ next, ask size token = some (.of (roll q.group none (pageBehind q t a (keyCount size)).1)
      (!(pageBehind q t a (keyCount size)).2.isEmpty), next) ∧
    ∀ e, (pageBehind q t a (keyCount size)).1.getLast? = some e → (pageBehind q t a (keyCount size)).2 ≠ [] → R next (some e.1)

/-- **Following the tokens**, by induction on the records that are left. -/
theorem follow_spec {τ : Type} {ask : Option ℤ → τ → Option (ShownPage × τ)} {R : τ → Option Bytes → Prop}
    (hask : Stands ask q t R) {sizes : ℕ → Option ℤ} (hsizes : ∀ k, 1 ≤ keyCount (sizes k)) :
    ∀ (m k : ℕ) (token : τ) (a : Option Bytes), R token a → ((q.behind a).listed t).length < m →
      ∃ pages, follow ask sizes m k token = some pages ∧
        Paged sizes k (roll q.group none ((q.behind a).listed t)) pages := by
  intro m
  induction m with
  | zero => intro k token a _ h; exact absurd h (Nat.not_lt_zero _)
  | succ m ih =>
    intro k token a hR hlen
    obtain ⟨next, hanswer, hnext⟩ := hask (sizes k) token a hR
    obtain ⟨hfits, -⟩ := length_roll_page (r := q.group) ((q.behind a).listed t) (keyCount (sizes k)) none
    have happend := page_append (r := q.group) ((q.behind a).listed t) (keyCount (sizes k)) none
    have hitems := roll_page (r := q.group) ((q.behind a).listed t) (keyCount (sizes k)) none
    unfold follow
    simp only [hanswer, ShownPage.of]
    by_cases hleft : (pageBehind q t a (keyCount (sizes k))).2 = []
    · simp only [hleft, isEmpty_nil, Bool.not_true, Bool.false_eq_true, if_false]
      refine ⟨_, rfl, ?_⟩
      have hleft' : (page q.group (keyCount (sizes k)) none ((q.behind a).listed t)).2 = [] := hleft
      rw [hleft', roll, append_nil] at hitems
      rw [hitems]
      exact .last hfits
    have hsome : (q.behind a).listed t ≠ [] := by
      intro h
      apply hleft
      unfold pageBehind
      rw [h]
      rfl
    have htaken := page_ne_nil (r := q.group) (hsizes k) hsome none
    obtain ⟨e, he⟩ := Option.ne_none_iff_exists'.1 (mt getLast?_eq_none_iff.1 htaken)
    have hrest : (q.behind (some e.1)).listed t = (pageBehind q t a (keyCount (sizes k))).2 :=
      ListQuery.listed_rest (q := q.behind a) happend.symm he
    have hshort : ((q.behind (some e.1)).listed t).length < m := by
      have hcount := congrArg List.length happend
      have hpos := length_pos_iff.2 htaken
      rw [length_append] at hcount
      rw [hrest, pageBehind]
      omega
    obtain ⟨pages, hfollow, hpaged⟩ := ih (k + 1) next (some e.1) (hnext e he hleft) hshort
    have hflag : (pageBehind q t a (keyCount (sizes k))).2.isEmpty = false := by simpa using hleft
    simp only [hflag, Bool.not_false, if_true, hfollow, Option.map_some]
    refine ⟨_, rfl, ?_⟩
    rw [hitems]
    rw [hrest] at hpaged
    exact .more hfits (roll_ne_nil hleft) hpaged

theorem page_behind (a : Option Bytes) (n : ℕ) : listPage ((q.behind a).listed t) q.pre q.delimiter n =
      q.pageOf none (pageBehind q t a n).1 (pageBehind q t a n).2 :=
  ListQuery.listPage_eq (q := q) (fun _ he => (ListQuery.mem_listed (q := q.behind a) he).1) n

theorem getD_answeredPrefixes (l : List Bytes) : (answeredPrefixes l).getD [] = l := by
  cases l <;> rfl

/-- The key of the last record of a page is its token. -/
theorem resume_pageOf {taken left : List (Bytes × Object)} {e : Bytes × Object} (he : taken.getLast? = some e)
    (hleft : left ≠ []) : (q.pageOf none taken left).resume = some e.1 := by
  simp [ListQuery.pageOf, DelimitedPage.resume, he, hleft]

/-- In the first version the marker is the start. -/
theorem stands_v1 : Stands (askV1 t q) q t Eq := by
  rintro size marker a rfl
  have hpage : listPage (rangeFilter t marker q.pre none) q.pre q.delimiter (keyCount size) = _ :=
    (congrArg (listPage · q.pre q.delimiter (keyCount size)) (rangeFilter_eq t q marker none)).trans (page_behind marker _)
  refine ⟨_, by simp only [askV1, listObjects, hpage, getD_answeredPrefixes]; rfl, ?_⟩
  intro e he hleft
  rw [resume_pageOf he hleft]
  split
  · rfl
  -- without a delimiter the last record is the last object shown
  rename_i hno
  have hgroup : ∀ e, q.group e = none := by
    intro e
    have hd : q.delimiter = none := by simp_all
    simp [ListQuery.group, ListQuery.rolled, hd]
  have hlast : (q.pageOf none (pageBehind q t marker (keyCount size)).1
      (pageBehind q t marker (keyCount size)).2).objects.getLast? = some (objectDto e) := by
    simp only [ListQuery.pageOf, roll_alone hgroup, ListQuery.filterMap_entry_single, getLast?_map, he, Option.map_some]
  rw [hlast]
  rfl

/-- In the second version the token is the start once there is one. -/
theorem stands_v2 : Stands (askV2 t q) q t fun token a => (token = none ∧ a = q.startAfter) ∨
    ∃ key, token = some (hexString key) ∧ a = some key ∧ validUtf8 key = true ∧ ∀ s ∈ q.startAfter, s < key := by
  intro size token a hR
  have hdecode : ∃ key, decodeContinuationToken token = .ok key ∧ ctsa key q.startAfter = a := by
    rcases hR with ⟨rfl, rfl⟩ | ⟨key, rfl, rfl, hutf, hlt⟩
    · exact ⟨none, rfl, rfl⟩
    · refine ⟨some key, ?_, ctsa_of_lt hlt⟩
      simp only [decodeContinuationToken, hexString, StoreId.hexDecode_flatMap, hutf, if_true]
  obtain ⟨key, hkey, rfl⟩ := hdecode
  have hpage : listPage (rangeFilter t q.startAfter q.pre key) q.pre q.delimiter (keyCount size) = _ :=
    (congrArg (listPage · q.pre q.delimiter (keyCount size)) (rangeFilter_eq t q q.startAfter key)).trans (page_behind _ _)
  refine ⟨_, by simp only [askV2, listObjectsV2, hkey, Except.map, listObjectsV2From, hpage, getD_answeredPrefixes]; rfl, ?_⟩
  intro e he hleft
  rw [resume_pageOf he hleft]
  have hmem : e ∈ (q.behind (ctsa key q.startAfter)).listed t := by
    have happend := page_append (r := q.group) ((q.behind (ctsa key q.startAfter)).listed t) (keyCount size) none
    rw [← happend]
    exact mem_append_left _ (mem_of_getLast? he)
  obtain ⟨-, hbehind, hutf⟩ := ListQuery.mem_listed hmem
  exact .inr ⟨e.1, rfl, rfl, hutf, (ctsa_lt_iff.1 hbehind).2⟩

end Follow

/-! ## What the pages show -/

theorem labels_of (items : List ListQuery.Shown) (truncated : Bool) :
    (ShownPage.of items truncated).labels.Perm (items.map (Item.label Prod.fst)) := by
  unfold ShownPage.labels ShownPage.of
  induction items with
  | nil => exact List.Perm.nil
  | cons item items ih =>
    cases item with
    | single e => exact ih.cons e.1
    | group g => exact List.perm_middle.trans (ih.cons g)

/-- The pages show all of the listing: the objects in order, the common prefixes in order, every item once,
earlier pages before later ones; no page is over its size, and one is truncated iff an item is to come. -/
structure ShowsAll (t : OrdMap Bytes (Cell Object)) (q : ListQuery) (sizes : ℕ → Option ℤ) (pages : List ShownPage) : Prop where
  contents : pages.flatMap ShownPage.contents = q.objects t
  prefixes : ∀ x, x ∈ pages.flatMap ShownPage.prefixes ↔ ∃ e ∈ q.listed t, q.rolled e.1 = some x
  ascend : (pages.flatMap ShownPage.prefixes).Pairwise (· < ·)
  once : (pages.flatMap ShownPage.labels).Nodup
  inTurn : pages.Pairwise fun p p' => ∀ x ∈ p.labels, ∀ y ∈ p'.labels, x < y
  fits : ∀ k p, pages[k]? = some p → ∀ n ∈ sizes k, (p.labels.length : ℤ) ≤ n
  truncated : ∀ before p after, pages = before ++ p :: after → (p.truncated = true ↔ ∃ p' ∈ after, p'.labels ≠ [])

namespace Paged

variable {sizes : ℕ → Option ℤ} {k : ℕ} {items : List ListQuery.Shown} {pages : List ShownPage}

theorem contents (h : Paged sizes k items pages) :
    pages.flatMap ShownPage.contents = (items.filterMap Item.entry).map objectDto := by
  induction h with
  | last => exact append_nil _
  | more _ _ _ ih => simp only [flatMap_cons, ih, filterMap_append, map_append]; rfl

theorem prefixes (h : Paged sizes k items pages) : pages.flatMap ShownPage.prefixes = items.filterMap Item.rolled := by
  induction h with
  | last => exact append_nil _
  | more _ _ _ ih => simp only [flatMap_cons, ih, filterMap_append]; rfl

theorem labels (h : Paged sizes k items pages) :
    (pages.flatMap ShownPage.labels).Perm (items.map (Item.label Prod.fst)) := by
  induction h with
  | last => rw [flatMap_singleton]; exact labels_of _ _
  | more _ _ _ ih =>
    rw [flatMap_cons, map_append]
    exact (labels_of _ _).append ih

theorem fits (h : Paged sizes k items pages) : ∀ i p, pages[i]? = some p → p.labels.length ≤ keyCount (sizes (k + i)) := by
  induction h with
  | last h =>
    intro i p hp
    cases i with
    | zero =>
      cases hp
      rw [(labels_of _ _).length_eq, length_map]
      exact h
    | succ i => cases hp
  | more h _ _ ih =>
    intro i p hp
    cases i with
    | zero =>
      cases hp
      rw [(labels_of _ _).length_eq, length_map]
      exact h
    | succ i =>
      have hle := ih i p hp
      rwa [Nat.add_right_comm, Nat.add_assoc] at hle

theorem inTurn (h : Paged sizes k items pages) (hitems : (items.map (Item.label Prod.fst)).Pairwise (· < ·)) :
    pages.Pairwise fun p p' => ∀ x ∈ p.labels, ∀ y ∈ p'.labels, x < y := by
  induction h with
  | last => exact pairwise_singleton _ _
  | more _ _ hpages ih =>
    rw [map_append] at hitems
    obtain ⟨-, hrest, hacross⟩ := pairwise_append.1 hitems
    refine pairwise_cons.2 ⟨?_, ih hrest⟩
    intro p hp x hx y hy
    have hy' := hpages.labels.mem_iff.1 (mem_flatMap.2 ⟨p, hp, hy⟩)
    exact hacross x ((labels_of _ _).mem_iff.1 hx) y hy'

theorem truncated (h : Paged sizes k items pages) : ∀ before p after, pages = before ++ p :: after →
    (p.truncated = true ↔ ∃ p' ∈ after, p'.labels ≠ []) := by
  induction h with
  | last =>
    intro before p after heq
    cases before with
    | cons _ before => exact absurd (List.cons.inj heq).2 (by simp)
    | nil =>
      obtain ⟨rfl, rfl⟩ := List.cons.inj heq
      simp [ShownPage.of]
  | more _ hrest hpages ih =>
    intro before p after heq
    cases before with
    | cons _ before => exact ih before p after (List.cons.inj heq).2
    | nil =>
      obtain ⟨rfl, rfl⟩ := List.cons.inj heq
      refine iff_of_true rfl ?_
      -- what remains has an item, and the pages behind show it
      by_contra hnone
      push Not at hnone
      have hempty := flatMap_eq_nil_iff.2 hnone
      have hlabels := hpages.labels
      rw [hempty] at hlabels
      exact hrest (map_eq_nil_iff.1 hlabels.nil_eq.symm)

end Paged

theorem one_le_keyCount {asked : Option ℤ} (h : ∀ n ∈ asked, 1 ≤ n) : 1 ≤ keyCount asked := by
  cases asked with
  | none => decide
  | some n =>
    have := h n rfl
    simp only [keyCount, maxKeys, Option.getD_some]
    omega

theorem keyCount_le {asked : Option ℤ} (h : ∀ n ∈ asked, 1 ≤ n) : ∀ n ∈ asked, (keyCount asked : ℤ) ≤ n := by
  rintro n rfl
  have := h n rfl
  simp only [keyCount, maxKeys, Option.getD_some]
  omega

/-- The items of a listing, in the order of their keys. -/
theorem items_sorted (t : OrdMap Bytes (Cell Object)) (q : ListQuery) :
    ((roll q.group none (q.listed t)).map (Item.label Prod.fst)).Pairwise (· < ·) := by
  refine (roll_sorted Prod.fst (q.listed t) none ?_ fun x hx => by cases hx).1
  refine (q.listed_sorted t).imp_of_mem ?_
  intro e e' he he' hlt
  exact ListQuery.ascending_of_lt (ListQuery.mem_listed he).1 (ListQuery.mem_listed he').1 hlt

theorem showsAll_of_paged {t : OrdMap Bytes (Cell Object)} {q : ListQuery} {sizes : ℕ → Option ℤ} {pages : List ShownPage}
    (hsizes : ∀ k, ∀ n ∈ sizes k, 1 ≤ n) (h : Paged sizes 0 (roll q.group none (q.listed t)) pages) :
    ShowsAll t q sizes pages where
  contents := by rw [h.contents, filterMap_entry_roll]; rfl
  prefixes x := by
    have hmem := mem_groups (r := q.group) x (q.listed t) none
    simp only [reduceCtorEq, or_false] at hmem
    rw [h.prefixes]
    exact hmem
  ascend := by
    rw [h.prefixes]
    exact (items_sorted t q).sublist (groups_sublist Prod.fst _)
  once := h.labels.nodup_iff.2 ((items_sorted t q).imp fun hlt => hlt.ne)
  inTurn := h.inTurn (items_sorted t q)
  fits k p hp n hn := by
    have hle := h.fits k p hp
    rw [Nat.zero_add] at hle
    exact le_trans (by exact_mod_cast hle) (keyCount_le (hsizes k) n hn)
  truncated := h.truncated

/-- **The pages of either version are the listing.** -/
theorem pages_complete (t : OrdMap Bytes (Cell Object)) (q : ListQuery) (sizes : ℕ → Option ℤ)
    (hsizes : ∀ k, ∀ n ∈ sizes k, 1 ≤ n) :
    (∃ fuel pages, follow (askV1 t q) sizes fuel 0 q.startAfter = some pages ∧ ShowsAll t q sizes pages) ∧
      ∃ fuel pages, follow (askV2 t q) sizes fuel 0 none = some pages ∧ ShowsAll t q sizes pages := by
  have hcount : ∀ k, 1 ≤ keyCount (sizes k) := fun k => one_le_keyCount (hsizes k)
  have henough : ((q.behind q.startAfter).listed t).length < (q.listed t).length + 1 := Nat.lt_succ_self _
  constructor
  · obtain ⟨pages, hpages, hpaged⟩ := follow_spec stands_v1 hcount _ 0 q.startAfter q.startAfter rfl henough
    exact ⟨_, pages, hpages, showsAll_of_paged hsizes hpaged⟩
  · obtain ⟨pages, hpages, hpaged⟩ := follow_spec stands_v2 hcount _ 0 none q.startAfter (Or.inl ⟨rfl, rfl⟩) henough
    exact ⟨_, pages, hpages, showsAll_of_paged hsizes hpaged⟩

/-- `a`, `b/x`, `b/y` and `c`. -/
def fourKeys : OrdMap Bytes (Cell Object) :=
  [[97], [98, 47, 120], [98, 47, 121], [99]].foldl (fun t key => t.insert key (.record ⟨0, 0, [], .inline []⟩)) .empty

/-- The items one by one: the page behind `b/` goes on at `c`. -/
example : ((follow (askV2 fourKeys ⟨some [47], none, none⟩) (fun _ => some 1) 3 0 none).getD []).map ShownPage.labels =
    [[[97]], [[98, 47]], [[99]]] := by decide +kernel

theorem pages_complete_one_by_one :
    (∀ k : ℕ, ∀ n ∈ (fun _ : ℕ => some (1 : ℤ)) k, 1 ≤ n) ∧
      (∃ fuel pages, follow (askV1 fourKeys ⟨some [47], none, none⟩) (fun _ => some 1) fuel 0 none = some pages ∧
        ShowsAll fourKeys ⟨some [47], none, none⟩ (fun _ => some 1) pages) ∧
      ∃ fuel pages, follow (askV2 fourKeys ⟨some [47], none, none⟩) (fun _ => some 1) fuel 0 none = some pages ∧
        ShowsAll fourKeys ⟨some [47], none, none⟩ (fun _ => some 1) pages := by
  have hsizes : ∀ k : ℕ, ∀ n ∈ (fun _ : ℕ => some (1 : ℤ)) k, 1 ≤ n := by
    rintro k n hn
    cases hn
    exact le_refl 1
  exact ⟨hsizes, pages_complete fourKeys ⟨some [47], none, none⟩ (fun _ => some 1) hsizes⟩

end QssStorage
