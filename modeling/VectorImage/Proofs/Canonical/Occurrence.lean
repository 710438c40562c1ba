import Mathlib.Data.Finset.Card
import Mathlib.Data.Finset.Dedup
import Mathlib.Data.List.TakeWhile
import VectorImage.Proofs.Canonical.Table

/-!
Tables as lists of first occurrences. Whatever the digest, a table answers its requests as a list
does that looks through all its entries for the key: buckets only save comparisons. From the list
it is read off that entries stay where they are, that interning answers the first entry with the
key, and that a table filled by interning alone counts the keys that come before.
-/

set_option autoImplicit false
set_option relaxedAutoImplicit false

namespace VectorImage

/-- What a table is asked: to append a value as it was loaded, or to intern it. -/
inductive TableRequest (α : Type)
  | load (v : α)
  | intern (v : α)

/-- Answer requests one after the other. -/
def serve {σ ρ β : Type} (answer : σ → ρ → σ × β) : σ → List ρ → σ × List β
  | s, [] => (s, [])
  | s, r :: rs =>
    let (t, b) := answer s r
    let (u, bs) := serve answer t rs
    (u, b :: bs)

theorem serve_append {σ ρ β : Type} (answer : σ → ρ → σ × β) (s : σ) (rs rs' : List ρ) :
    serve answer s (rs ++ rs') =
      ((serve answer (serve answer s rs).1 rs').1,
        (serve answer s rs).2 ++ (serve answer (serve answer s rs).1 rs').2) := by
  induction rs generalizing s with
  | nil => rfl
  | cons r rs ih => simp only [List.cons_append, serve, ih]

/-- What holds at the start and is kept by every answer holds in the end. -/
theorem serve_induct {σ ρ β : Type} {answer : σ → ρ → σ × β} {P : σ → Prop}
    (hstep : ∀ s r, P s → P (answer s r).1) {s : σ} (h : P s) (rs : List ρ) :
    P (serve answer s rs).1 := by
  induction rs generalizing s with
  | nil => exact h
  | cons r rs ih => exact ih (hstep s r h)

/-! The list. -/

namespace Occurrences

variable {α : Type} [Keyed α]

/-- Append a value while there is an index for it. -/
def append (vs : List α) (v : α) : List α × Except Error UInt32 :=
  if vs.length < 2 ^ 32 then (vs ++ [v], .ok (UInt32.ofNat vs.length))
  else (vs, .error (.other .indexOverflow))

/-- Look for the key from the front; append the value where it is not there. -/
def answer (vs : List α) : TableRequest α → List α × Except Error UInt32
  | .load v => append vs v
  | .intern v =>
    match vs.findIdx? fun w => Keyed.key w == Keyed.key v with
    | some i => (vs, .ok (UInt32.ofNat i))
    | none => append vs v

omit [Keyed α] in
/-- The value is appended under the next index, or there is none and the list stays. -/
theorem append_cases (vs : List α) (v : α) :
    (vs.length < 2 ^ 32 ∧ append vs v = (vs ++ [v], .ok (UInt32.ofNat vs.length))) ∨
      (2 ^ 32 ≤ vs.length ∧ append vs v = (vs, .error (.other .indexOverflow))) := by
  unfold append
  split
  · next hroom => exact .inl ⟨hroom, rfl⟩
  · next hfull => exact .inr ⟨Nat.not_lt.mp hfull, rfl⟩

/-- Entries stay where they are, and no index is given twice. -/
theorem answer_grows (vs : List α) (r : TableRequest α) (h : vs.length ≤ 2 ^ 32) :
    vs <+: (answer vs r).1 ∧ (answer vs r).1.length ≤ 2 ^ 32 := by
  have happend (v : α) : vs <+: (append vs v).1 ∧ (append vs v).1.length ≤ 2 ^ 32 := by
    rcases append_cases vs v with ⟨hroom, he⟩ | ⟨-, he⟩ <;> rw [he]
    · refine ⟨List.prefix_append vs [v], ?_⟩
      rw [List.length_append, List.length_singleton]
      exact hroom
    · exact ⟨List.prefix_refl vs, h⟩
  cases r with
  | load v => exact happend v
  | intern v =>
    cases hfind : vs.findIdx? fun w => Keyed.key w == Keyed.key v with
    | some i => simpa only [answer, hfind] using ⟨List.prefix_refl vs, h⟩
    | none => simpa only [answer, hfind] using happend v

theorem serve_grows {vs : List α} (h : vs.length ≤ 2 ^ 32) (rs : List (TableRequest α)) :
    vs <+: (serve answer vs rs).1 ∧ (serve answer vs rs).1.length ≤ 2 ^ 32 :=
  serve_induct (P := fun ws => vs <+: ws ∧ ws.length ≤ 2 ^ 32)
    (fun ws r hws => ⟨hws.1.trans (answer_grows ws r hws.2).1, (answer_grows ws r hws.2).2⟩)
    ⟨List.prefix_refl vs, h⟩ rs

/-- How many distinct keys come before the key of `v` does. -/
def distinctBefore (vs : List α) (v : α) : Nat :=
  ((vs.takeWhile fun w => Keyed.key w != Keyed.key v).map Keyed.key).toFinset.card

/-- The index of a value, of a table of the values of `vs`, each once. -/
def numbered (vs : List α) (v : α) : Except Error UInt32 :=
  if distinctBefore vs v < 2 ^ 32 then .ok (UInt32.ofNat (distinctBefore vs v))
  else .error (.other .indexOverflow)

/-- Without repetitions a key stands where the distinct keys before it end. -/
theorem idxOf_eraseDups (keys : List Key) (key : Key) :
    keys.eraseDups.idxOf key = (keys.takeWhile (· != key)).toFinset.card := by
  have hcard (before : List Key) : before.toFinset.card = before.eraseDups.length := by
    rw [← List.toFinset_card_of_nodup (nodup_eraseDups before)]
    congr 1
    ext k
    simp
  rw [hcard]
  by_cases hmem : key ∈ keys
  · obtain ⟨before, after, rfl, hnot⟩ := List.eq_append_cons_of_mem hmem
    have hbefore : (before ++ key :: after).takeWhile (· != key) = before := by
      rw [List.takeWhile_append_of_pos fun k hk => ?_]
      · simp
      · exact bne_iff_ne.mpr fun he => hnot (he ▸ hk)
    have hkept : (key :: after).removeAll before = key :: after.removeAll before := by
      simp [List.removeAll, hnot]
    rw [hbefore, List.eraseDups_append, hkept, List.eraseDups_cons,
      List.idxOf_append_of_notMem (fun h => hnot (List.mem_eraseDups.mp h)),
      List.idxOf_cons_self, Nat.add_zero]
  · have hall : keys.takeWhile (· != key) = keys :=
      List.takeWhile_eq_self_iff.mpr fun k hk => bne_iff_ne.mpr fun he => hmem (he ▸ hk)
    rw [hall]
    exact List.idxOf_eq_length_iff.mpr fun h => hmem (List.mem_eraseDups.mp h)

/-- The entries of a list that only interns: the distinct keys, as many as there are indices. -/
def Numbers (ws vs : List α) : Prop :=
  ws.map Keyed.key = (vs.map Keyed.key).eraseDups.take (2 ^ 32)

theorem distinctBefore_eq (vs : List α) (v : α) :
    distinctBefore vs v = (vs.map Keyed.key).eraseDups.idxOf (Keyed.key v) := by
  rw [idxOf_eraseDups, List.takeWhile_map]
  rfl

/-- A key has fewer distinct keys before it than there are exactly when it is there. -/
private theorem distinctBefore_lt_iff (vs : List α) (v : α) :
    distinctBefore vs v < (vs.map Keyed.key).eraseDups.length ↔
      Keyed.key v ∈ vs.map Keyed.key := by
  rw [distinctBefore_eq, List.idxOf_lt_length_iff, List.mem_eraseDups]

private theorem distinctBefore_le (vs : List α) (v : α) :
    distinctBefore vs v ≤ (vs.map Keyed.key).eraseDups.length := by
  rw [distinctBefore_eq]
  exact List.idxOf_le_length

private theorem Numbers.length {ws vs : List α} (h : Numbers ws vs) :
    ws.length = min (2 ^ 32) (vs.map Keyed.key).eraseDups.length := by
  rw [← List.length_map Keyed.key, h, List.length_take]

/-- A key is found where it stands among the distinct keys, if an index reaches it. -/
private theorem Numbers.findIdx? {ws vs : List α} (h : Numbers ws vs) (v : α) :
    (ws.findIdx? fun w => Keyed.key w == Keyed.key v) =
      if Keyed.key v ∈ vs.map Keyed.key ∧ distinctBefore vs v < 2 ^ 32 then
        some (distinctBefore vs v) else none := by
  have hkeys : (ws.findIdx? fun w => Keyed.key w == Keyed.key v) =
      (ws.map Keyed.key).findIdx? (· == Keyed.key v) := by
    rw [List.findIdx?_map]
    rfl
  have hplace : (vs.map Keyed.key).eraseDups.findIdx (· == Keyed.key v) = distinctBefore vs v :=
    (distinctBefore_eq vs v).symm
  have hreached : min (2 ^ 32) (distinctBefore vs v) <
      min (2 ^ 32) (vs.map Keyed.key).eraseDups.length ↔
      Keyed.key v ∈ vs.map Keyed.key ∧ distinctBefore vs v < 2 ^ 32 := by
    rw [← distinctBefore_lt_iff]
    omega
  rw [hkeys, h, List.findIdx?_eq_guard_findIdx_lt, List.findIdx_take, List.length_take, hplace]
  split
  · next hboth =>
    exact Option.guard_eq_some_iff.mpr
      ⟨Nat.min_eq_right (Nat.le_of_lt hboth.2), decide_eq_true (hreached.mpr hboth)⟩
  · next hnone =>
    exact Option.guard_eq_none_iff.mpr (decide_eq_false fun hlt => hnone (hreached.mp hlt))

/-- Interning once more. -/
theorem Numbers.intern {ws vs : List α} (h : Numbers ws vs) (v : α) :
    Numbers (answer ws (.intern v)).1 (vs ++ [v]) ∧
      (answer ws (.intern v)).2 = numbered vs v := by
  have hfind := h.findIdx? v
  have hlength := h.length
  have hlt := distinctBefore_lt_iff vs v
  have hle := distinctBefore_le vs v
  have hdistinct := eraseDups_concat (vs.map Keyed.key) (Keyed.key v)
  unfold Numbers at h ⊢
  rw [List.map_append, List.map_singleton, hdistinct]
  by_cases hroom : distinctBefore vs v < 2 ^ 32
  · have hnumber : numbered vs v = .ok (UInt32.ofNat (distinctBefore vs v)) := if_pos hroom
    by_cases hmem : Keyed.key v ∈ vs.map Keyed.key
    · rw [if_pos ⟨hmem, hroom⟩] at hfind
      have hfound : answer ws (.intern v) = (ws, .ok (UInt32.ofNat (distinctBefore vs v))) := by
        simp only [answer, hfind]
      rw [hfound, hnumber, if_pos hmem, List.append_nil]
      exact ⟨h, rfl⟩
    · rw [if_neg fun hboth => hmem hboth.1] at hfind
      have hend := Nat.not_lt.mp fun hbefore => hmem (hlt.mp hbefore)
      have hlast : ws.length = distinctBefore vs v := by omega
      have hnew : answer ws (.intern v) = (ws ++ [v], .ok (UInt32.ofNat ws.length)) := by
        simp only [answer, hfind, append, if_pos (show ws.length < 2 ^ 32 by omega)]
      rw [hnew, hnumber, if_neg hmem, hlast, List.map_append, h]
      refine ⟨?_, rfl⟩
      rw [List.take_of_length_le (by omega), List.take_of_length_le (by simp; omega)]
      rfl
  · have hnumber : numbered vs v = .error (.other .indexOverflow) := if_neg hroom
    rw [if_neg fun hboth => hroom hboth.2] at hfind
    have hfull : answer ws (.intern v) = (ws, .error (.other .indexOverflow)) := by
      simp only [answer, hfind, append, if_neg (show ¬ws.length < 2 ^ 32 by omega)]
    rw [hfull, hnumber, List.take_append_of_le_length (by omega)]
    exact ⟨h, rfl⟩

/-- What comes after a key does not change how many come before it. -/
private theorem distinctBefore_concat (vs : List α) (v w : α)
    (h : Keyed.key w ∈ vs.map Keyed.key ∨ Keyed.key w = Keyed.key v) :
    distinctBefore (vs ++ [v]) w = distinctBefore vs w := by
  rw [distinctBefore_eq, distinctBefore_eq, List.map_append, List.map_singleton, eraseDups_concat]
  by_cases hmem : Keyed.key w ∈ vs.map Keyed.key
  · exact List.idxOf_append_of_mem (List.mem_eraseDups.mpr hmem)
  · have hsame := h.resolve_left hmem
    rw [hsame] at hmem ⊢
    have hnot : Keyed.key v ∉ (vs.map Keyed.key).eraseDups :=
      fun hv => hmem (List.mem_eraseDups.mp hv)
    rw [if_neg hmem, List.idxOf_append_of_notMem hnot, List.idxOf_cons_self,
      List.idxOf_eq_length_iff.mpr hnot, Nat.add_zero]

/-- Interning appends no repetition, and each value has the number of distinct ones before it. -/
theorem serve_interns (vs : List α) :
    Numbers (serve answer [] (vs.map .intern)).1 vs ∧
      (serve answer [] (vs.map .intern)).2 = vs.map (numbered vs) := by
  induction vs using List.reverseRecOn with
  | nil => exact ⟨rfl, rfl⟩
  | append_singleton vs v ih =>
    obtain ⟨hnumbers, hanswers⟩ := ih
    obtain ⟨hnext, hanswer⟩ := hnumbers.intern v
    have hkept (w : α) (hw : w ∈ vs ∨ w = v) : numbered (vs ++ [v]) w = numbered vs w := by
      have hcount := distinctBefore_concat vs v w
        (hw.imp (fun hw => List.mem_map_of_mem hw) (congrArg Keyed.key))
      rw [numbered, numbered, hcount]
    rw [List.map_append, List.map_singleton, serve_append]
    refine ⟨hnext, ?_⟩
    rw [List.map_append, List.map_singleton, hkept v (.inr rfl),
      List.map_congr_left fun w hw => hkept w (.inl hw), hanswers]
    exact congrArg (_ ++ [·]) hanswer

end Occurrences

namespace CanonicalTable

variable {α : Type} [Keyed α] [KeyDigest]

/-- Answer one request. One that is refused leaves the table as it is. -/
def answer (t : CanonicalTable α) (r : TableRequest α) :
    CanonicalTable α × Except Error UInt32 :=
  let outcome := match r with
    | .load v => t.pushIndexed v
    | .intern v => t.intern v
  match outcome with
  | .ok (u, i) => (u, .ok i)
  | .error e => (t, .error e)

/-- The table that requests leave, from the empty one. -/
def filled (rs : List (TableRequest α)) : CanonicalTable α := (serve answer empty rs).1

/-- Looking in the bucket finds what looking through all entries finds. -/
theorem Built.find?_eq_findIdx? {t : CanonicalTable α} (h : t.Built) (v : α) :
    t.find? v = t.entries.toList.findIdx? fun w => Keyed.key w == Keyed.key v := by
  cases hfind : t.find? v with
  | none =>
    refine (List.findIdx?_eq_none_iff.mpr fun w hw => ?_).symm
    refine beq_eq_false_iff_ne.mpr fun hkey => ?_
    obtain ⟨i, hi⟩ := h.bucketed.find?_progress (Array.mem_toList_iff.mp hw)
    rw [t.find?_congr hkey, hfind] at hi
    cases hi
  | some i =>
    obtain ⟨w, hw, hkey⟩ := find?_key hfind
    rw [← Array.getElem?_toList] at hw
    obtain ⟨hlt, hentry⟩ := List.getElem?_eq_some_iff.mp hw
    refine (List.findIdx?_eq_some_iff_getElem.mpr ⟨hlt, ?_, fun j hj hkey' => ?_⟩).symm
    · rw [hentry, hkey]
      exact beq_self_eq_true _
    · have hfind' := (t.find?_congr (eq_of_beq hkey')).trans hfind
      have hj' : t.entries[j]? = some t.entries.toList[j] := by
        rw [← Array.getElem?_toList]
        exact List.getElem?_eq_getElem (Nat.lt_trans hj hlt)
      exact Nat.not_le.mpr hj (h.find?_le hfind' hj')

theorem pushIndexed_of_full {t : CanonicalTable α} (hfull : ¬t.size < 2 ^ 32) (v : α) :
    t.pushIndexed v = .error (.other .indexOverflow) := by
  rw [pushIndexed, nextIndex, if_neg hfull]
  rfl

/-- Appending to a table is appending to its entries. -/
theorem answer_load (t : CanonicalTable α) (v : α) :
    ((t.answer (.load v)).1.entries.toList, (t.answer (.load v)).2) =
      Occurrences.append t.entries.toList v := by
  have hsize : t.entries.toList.length = t.size := Array.length_toList
  unfold answer Occurrences.append
  rw [hsize]
  by_cases hroom : t.size < 2 ^ 32
  · simp only [pushIndexed_of_room hroom, if_pos hroom, entries_push, Array.toList_push]
  · simp only [pushIndexed_of_full hroom, if_neg hroom]

/-- One answer: the table does as the list of its entries. -/
theorem Built.answer_eq {t : CanonicalTable α} (h : t.Built) (r : TableRequest α) :
    ((t.answer r).1.entries.toList, (t.answer r).2) =
      Occurrences.answer t.entries.toList r := by
  cases r with
  | load v => exact answer_load t v
  | intern v =>
    rw [Occurrences.answer, ← h.find?_eq_findIdx?]
    cases hfind : t.find? v with
    | some i => simp only [answer, intern, hfind]
    | none =>
      have hnew : t.answer (.intern v) = t.answer (.load v) := by
        simp only [answer, intern, hfind]
      rw [hnew]
      exact answer_load t v

theorem Built.answer {t : CanonicalTable α} (h : t.Built) (r : TableRequest α) :
    (t.answer r).1.Built := by
  have hpush (v : α) : (t.answer (.load v)).1.Built := by
    by_cases hroom : t.size < 2 ^ 32
    · simp only [CanonicalTable.answer, pushIndexed_of_room hroom]
      exact h.push v
    · simp only [CanonicalTable.answer, pushIndexed_of_full hroom]
      exact h
  cases r with
  | load v => exact hpush v
  | intern v =>
    cases hfind : t.find? v with
    | some i =>
      simp only [CanonicalTable.answer, intern, hfind]
      exact h
    | none =>
      have hnew : t.answer (.intern v) = t.answer (.load v) := by
        simp only [CanonicalTable.answer, intern, hfind]
      rw [hnew]
      exact hpush v

/-- All answers: the table does as the list of its entries, to the end. -/
theorem Built.serve_eq {t : CanonicalTable α} (h : t.Built) (rs : List (TableRequest α)) :
    ((serve CanonicalTable.answer t rs).1.entries.toList, (serve CanonicalTable.answer t rs).2) =
      serve Occurrences.answer t.entries.toList rs := by
  induction rs generalizing t with
  | nil => rfl
  | cons r rs ih =>
    have hrest := ih (h.answer r)
    have hfirst := h.answer_eq r
    simp only [serve]
    rw [← hfirst]
    simp only [← hrest]

theorem built_filled (rs : List (TableRequest α)) : (filled rs).Built :=
  serve_induct (fun _ r h => h.answer r) built_empty rs

/-- What is looked for is found exactly when an entry has its key. -/
theorem Built.find?_isSome_iff {t : CanonicalTable α} (h : t.Built) (v : α) :
    (t.find? v).isSome ↔ ∃ w ∈ t.entries, Keyed.key w = Keyed.key v := by
  rw [Option.isSome_iff_exists]
  constructor
  · rintro ⟨i, hi⟩
    obtain ⟨w, hw, hkey⟩ := find?_key hi
    exact ⟨w, Array.mem_of_getElem? hw, hkey⟩
  · rintro ⟨w, hw, hkey⟩
    rw [t.find?_congr hkey.symm]
    exact h.bucketed.find?_progress hw

end CanonicalTable

/-- What a table of first occurrences does, on every sequence of requests. -/
structure CanonicalTable.FirstOccurrences (α : Type) [Keyed α] [KeyDigest] : Prop where
  /-- Entries and answers are those of the list. -/
  refines (rs : List (TableRequest α)) :
    ((filled rs).entries.toList, (serve answer empty rs).2) = serve Occurrences.answer [] rs
  /-- A stored entry stays where it is, and every entry has an index. -/
  stays (rs rs' : List (TableRequest α)) :
    (filled rs).entries.toList <+: (filled (rs ++ rs')).entries.toList ∧
      (filled rs).size ≤ 2 ^ 32
  /-- What is loaded gets the next index. -/
  loads (rs : List (TableRequest α)) (v : α) (hroom : (filled rs).size < 2 ^ 32) :
    (filled rs).answer (.load v) = ((filled rs).push v, .ok (UInt32.ofNat (filled rs).size))
  /-- The least index of an entry with the key is answered, and nothing is appended. -/
  finds (rs : List (TableRequest α)) (v w : α) (i : Nat)
    (hentry : (filled rs).entries[i]? = some w) (hkey : Keyed.key w = Keyed.key v)
    (hleast : ∀ j < i, ∀ u, (filled rs).entries[j]? = some u → Keyed.key u ≠ Keyed.key v) :
    (filled rs).answer (.intern v) = (filled rs, .ok (UInt32.ofNat i))
  /-- Where no entry has the key, the value is appended. -/
  appends (rs : List (TableRequest α)) (v : α)
    (hnew : ∀ w ∈ (filled rs).entries, Keyed.key w ≠ Keyed.key v) :
    (filled rs).answer (.intern v) = (filled rs).answer (.load v)
  /-- Interning alone stores no key twice and counts the distinct keys before that of a value. -/
  numbers (vs : List α) :
    ((filled (vs.map .intern)).entries.toList.map Keyed.key).Nodup ∧
      (serve answer empty (vs.map .intern)).2 = vs.map (Occurrences.numbered vs)

namespace CanonicalTable

variable {α : Type} [Keyed α] [KeyDigest]

theorem entries_filled (rs : List (TableRequest α)) :
    (filled rs).entries.toList = (serve Occurrences.answer [] rs).1 :=
  congrArg Prod.fst (built_empty.serve_eq rs)

/-- The first entry with the key is found. -/
theorem find?_filled {rs : List (TableRequest α)} {v w : α} {i : Nat}
    (hentry : (filled rs).entries[i]? = some w) (hkey : Keyed.key w = Keyed.key v)
    (hleast : ∀ j < i, ∀ u, (filled rs).entries[j]? = some u → Keyed.key u ≠ Keyed.key v) :
    (filled rs).find? v = some i := by
  rw [(built_filled rs).find?_eq_findIdx?]
  rw [← Array.getElem?_toList] at hentry
  obtain ⟨hlt, hat⟩ := List.getElem?_eq_some_iff.mp hentry
  refine List.findIdx?_eq_some_iff_getElem.mpr ⟨hlt, ?_, fun j hj hsame => ?_⟩
  · rw [hat, hkey]
    exact beq_self_eq_true _
  · refine hleast j hj _ ?_ (eq_of_beq hsame)
    rw [← Array.getElem?_toList]
    exact List.getElem?_eq_getElem (Nat.lt_trans hj hlt)

theorem firstOccurrences : FirstOccurrences α where
  refines rs := built_empty.serve_eq rs
  stays rs rs' := by
    have hempty : ([] : List α).length ≤ 2 ^ 32 := Nat.zero_le _
    obtain ⟨-, hsize⟩ := Occurrences.serve_grows hempty rs
    refine ⟨?_, ?_⟩
    · rw [entries_filled, entries_filled, serve_append]
      exact (Occurrences.serve_grows hsize rs').1
    · rw [size, ← Array.length_toList, entries_filled]
      exact hsize
  loads rs v hroom := by simp only [answer, pushIndexed_of_room hroom]
  finds rs v w i hentry hkey hleast := by
    simp only [answer, intern, find?_filled hentry hkey hleast]
  appends rs v hnew := by
    have hnone : (filled rs).find? v = none := by
      refine Option.not_isSome_iff_eq_none.mp fun hsome => ?_
      obtain ⟨w, hw, hkey⟩ := ((built_filled rs).find?_isSome_iff v).mp hsome
      exact hnew w hw hkey
    simp only [answer, intern, hnone]
  numbers vs := by
    obtain ⟨hnumbers, hanswers⟩ := Occurrences.serve_interns vs
    refine ⟨?_, ?_⟩
    · rw [entries_filled, hnumbers]
      exact (nodup_eraseDups _).sublist (List.take_sublist _ _)
    · exact (congrArg Prod.snd (built_empty.serve_eq _)).trans hanswers

end CanonicalTable

end VectorImage
