import DiceTally.Memo
import Mathlib.Data.List.Induction

/-!
# The history of a cache

A cache is used by requests: it is asked for the result of an input, or a result is inserted.  After any requests
what it keeps is a part of what has been inserted, for every input the latest result, and no more than its capacity
(`records_used`).  An unbounded cache keeps all of it (`used_faithful`).
-/

namespace DiceTally

namespace MemoCache

/-! ### Single requests -/

variable {c : MemoCache}

theorem getElem?_entries_insert (entries : Std.TreeMap Tuple Tuple) (input output x : Tuple) :
    (entries.insert input output)[x]? = if input = x then some output else entries[x]? := by
  rw [Std.TreeMap.getElem?_insert]
  by_cases hx : input = x
  · rw [if_pos hx, if_pos (by rw [hx]; exact Std.ReflCmp.compare_self)]
  · rw [if_neg hx, if_neg fun h => hx (Std.LawfulEqCmp.eq_of_compare h)]

/-- The answer of a cache is what it keeps. -/
theorem fst_get (c : MemoCache) (input : Tuple) : (c.get input).1 = c.entries[input]? := by
  unfold get
  cases c.entries[input]? <;> rfl

/-- Asking a cache counts the request as one with or without success, and changes nothing else. -/
theorem snd_get (c : MemoCache) (input : Tuple) :
    (c.get input).2 =
      if c.entries[input]?.isSome then { c with hits := c.hits + 1 } else { c with misses := c.misses + 1 } := by
  unfold get
  cases c.entries[input]? <;> rfl

@[simp] theorem entries_get (c : MemoCache) (input : Tuple) : (c.get input).2.entries = c.entries := by
  rw [snd_get]
  split <;> rfl

@[simp] theorem capacity_get (c : MemoCache) (input : Tuple) : (c.get input).2.capacity = c.capacity := by
  rw [snd_get]
  split <;> rfl

@[simp] theorem size_get (c : MemoCache) (input : Tuple) : (c.get input).2.size = c.size := by
  rw [size, entries_get, size]

theorem hits_add_misses_get (c : MemoCache) (input : Tuple) :
    (c.get input).2.hits + (c.get input).2.misses = c.hits + c.misses + 1 := by
  rw [snd_get]
  split
  · show c.hits + 1 + c.misses = _
    omega
  · rfl

/-- A cache with capacity zero does not change.  Any other one keeps the new result, having been emptied before if it
was full. -/
theorem insert_cases (c : MemoCache) (input output : Tuple) :
    (c.capacity = some 0 ∧ c.insert input output = c) ∨
      ∃ kept : Std.TreeMap Tuple Tuple, c.insert input output = { c with entries := kept.insert input output } ∧
        c.capacity ≠ some 0 ∧
        ((kept = c.entries ∧ ∀ n, c.capacity = some n → c.size < n) ∨ (kept = ∅ ∧ c.capacity ≠ none)) := by
  unfold insert
  split
  · rename_i hnone
    exact .inr ⟨c.entries, rfl, by simp [hnone], .inl ⟨rfl, by simp [hnone]⟩⟩
  · rename_i hzero
    exact .inl ⟨hzero, rfl⟩
  · rename_i capacity hpos hsome
    refine .inr ⟨_, rfl, by simpa [hsome] using hpos, ?_⟩
    by_cases hfull : capacity ≤ c.size
    · exact .inr ⟨if_pos hfull, by simp [hsome]⟩
    · refine .inl ⟨if_neg hfull, fun n hn => ?_⟩
      have hn : capacity = n := Option.some.inj (hsome.symm.trans hn)
      omega

/-- Only what is kept changes. -/
theorem counts_insert (c : MemoCache) (input output : Tuple) :
    (c.insert input output).hits = c.hits ∧ (c.insert input output).misses = c.misses ∧
      (c.insert input output).capacity = c.capacity := by
  rcases insert_cases c input output with ⟨-, h⟩ | ⟨kept, h, -⟩
  · rw [h]
    exact ⟨rfl, rfl, rfl⟩
  · rw [h]
    exact ⟨rfl, rfl, rfl⟩

/-- What a cache keeps after an insertion. -/
theorem entries_insert_of_ne_zero (h : c.capacity ≠ some 0) (input output : Tuple) :
    (c.insert input output).entries[input]? = some output := by
  rcases insert_cases c input output with ⟨hzero, -⟩ | ⟨kept, hinsert, -⟩
  · exact absurd hzero h
  · rw [hinsert, getElem?_entries_insert, if_pos rfl]

theorem entries_insert_of_unbounded (h : c.capacity = none) (input output x : Tuple) :
    (c.insert input output).entries[x]? = if input = x then some output else c.entries[x]? := by
  rcases insert_cases c input output with ⟨hzero, -⟩ | ⟨kept, hinsert, -, ⟨rfl, -⟩ | ⟨-, hbounded⟩⟩
  · rw [h] at hzero
    cases hzero
  · rw [hinsert, getElem?_entries_insert]
  · exact absurd h hbounded

/-- What a cache keeps is the new result, or was there before. -/
theorem of_entries_insert {input output x y : Tuple} (hx : (c.insert input output).entries[x]? = some y) :
    (input = x ∧ output = y) ∨ c.entries[x]? = some y := by
  rcases insert_cases c input output with ⟨-, hsame⟩ | ⟨kept, hinsert, -, hkept⟩
  · rw [hsame] at hx
    exact .inr hx
  · rw [hinsert, getElem?_entries_insert] at hx
    split at hx
    · rename_i hinput
      exact .inl ⟨hinput, Option.some.inj hx⟩
    · rcases hkept with ⟨rfl, -⟩ | ⟨rfl, -⟩
      · exact .inr hx
      · simp at hx

/-- No more than the capacity is kept, if there is one. -/
def Fits (c : MemoCache) : Prop := ∀ n, c.capacity = some n → c.size ≤ n

theorem fits_new (capacity : Option Nat) : (new capacity).Fits := by
  intro n _
  exact Nat.zero_le n

/-- Nothing is kept with capacity zero. -/
theorem Fits.isEmpty (h : c.Fits) (hzero : c.capacity = some 0) : c.isEmpty = true := by
  have hsize : c.entries.size = 0 := Nat.le_zero.1 (h 0 hzero)
  rw [MemoCache.isEmpty, Std.TreeMap.isEmpty_eq_size_eq_zero, hsize]
  rfl

theorem Fits.get (h : c.Fits) (input : Tuple) : (c.get input).2.Fits := by
  intro n hn
  rw [capacity_get] at hn
  rw [size_get]
  exact h n hn

theorem Fits.insert (h : c.Fits) (input output : Tuple) : (c.insert input output).Fits := by
  rcases insert_cases c input output with ⟨-, hsame⟩ | ⟨kept, hinsert, hzero, hkept⟩
  · rw [hsame]
    exact h
  · rw [hinsert]
    intro n (hn : c.capacity = some n)
    have hsize : (kept.insert input output).size ≤ kept.size + 1 := Std.TreeMap.size_insert_le
    show (kept.insert input output).size ≤ n
    rcases hkept with ⟨rfl, hroom⟩ | ⟨rfl, -⟩
    · have hlt : c.entries.size < n := hroom n hn
      omega
    · have hpos : n ≠ 0 := by
        rintro rfl
        exact hzero hn
      have hempty : (∅ : Std.TreeMap Tuple Tuple).size = 0 := rfl
      omega

/-- What a cache keeps is the new result, or was there before for another input. -/
theorem Fits.of_entries_insert (h : c.Fits) {input output x y : Tuple}
    (hx : (c.insert input output).entries[x]? = some y) :
    (input = x ∧ output = y) ∨ (input ≠ x ∧ c.entries[x]? = some y) := by
  by_cases hinput : input = x
  · subst hinput
    by_cases hzero : c.capacity = some 0
    · have hcapacity := (c.counts_insert input output).2.2.trans hzero
      rw [Std.TreeMap.getElem?_of_isEmpty ((h.insert input output).isEmpty hcapacity)] at hx
      cases hx
    · rw [entries_insert_of_ne_zero hzero] at hx
      exact .inl ⟨rfl, Option.some.inj hx⟩
  · rcases MemoCache.of_entries_insert hx with ⟨hequal, -⟩ | hkept
    · exact absurd hequal hinput
    · exact .inr ⟨hinput, hkept⟩

/-! ### Sequences of requests -/

/-- A use of a cache. -/
inductive Request where
  | get (input : Tuple)
  | insert (input output : Tuple)

def Request.isGet : Request → Bool
  | get _ => true
  | insert .. => false

/-- The cache after a request. -/
def perform (c : MemoCache) : Request → MemoCache
  | .get input => (c.get input).2
  | .insert input output => c.insert input output

/-- A new cache after a sequence of requests. -/
def used (capacity : Option Nat) (requests : List Request) : MemoCache := requests.foldl perform (new capacity)

theorem used_concat (capacity : Option Nat) (requests : List Request) (request : Request) :
    used capacity (requests ++ [request]) = (used capacity requests).perform request := by
  rw [used, List.foldl_append]
  rfl

/-- The result has been inserted for this input, and no other one since then. -/
def IsLatest (requests : List Request) (input output : Tuple) : Prop :=
  ∃ before after, requests = before ++ .insert input output :: after ∧ ∀ other, .insert input other ∉ after

theorem isLatest_concat_iff {requests : List Request} {request : Request} {input output : Tuple} :
    IsLatest (requests ++ [request]) input output ↔
      request = .insert input output ∨ (∀ other, request ≠ .insert input other) ∧ IsLatest requests input output := by
  constructor
  · rintro ⟨before, after, hrequests, hlast⟩
    rcases List.eq_nil_or_concat after with rfl | ⟨middle, last, rfl⟩
    · exact .inl (List.head_eq_of_cons_eq (List.append_inj' hrequests rfl).2)
    · rw [List.concat_eq_append, ← List.cons_append, ← List.append_assoc] at hrequests
      obtain ⟨hfront, hrequest⟩ := List.append_inj' hrequests rfl
      obtain rfl : request = last := List.head_eq_of_cons_eq hrequest
      refine .inr ⟨fun other hother => ?_, before, middle, hfront, fun other hother => ?_⟩
      · exact hlast other (by simp [hother])
      · exact hlast other (by simp [hother])
  · rintro (rfl | ⟨hrequest, before, after, rfl, hlast⟩)
    · exact ⟨requests, [], rfl, fun _ => List.not_mem_nil⟩
    · refine ⟨before, after ++ [request], by simp, fun other hother => ?_⟩
      rcases List.mem_append.1 hother with hafter | hequal
      · exact hlast other hafter
      · exact hrequest other (List.mem_singleton.1 hequal).symm

/-- What has been inserted has a latest result. -/
theorem exists_isLatest_iff {requests : List Request} {input : Tuple} :
    (∃ output, IsLatest requests input output) ↔ ∃ output, .insert input output ∈ requests := by
  constructor
  · rintro ⟨output, before, after, rfl, -⟩
    exact ⟨output, by simp⟩
  · rintro ⟨output, hmem⟩
    induction requests using List.reverseRecOn with
    | nil => cases hmem
    | append_singleton requests request ih =>
      by_cases hrequest : ∃ other, request = .insert input other
      · obtain ⟨other, hother⟩ := hrequest
        exact ⟨other, isLatest_concat_iff.2 (.inl hother)⟩
      · have hne : ∀ other, request ≠ .insert input other := fun other h => hrequest ⟨other, h⟩
        have hbefore : .insert input output ∈ requests := by
          rcases List.mem_append.1 hmem with h | h
          · exact h
          · exact absurd (List.mem_singleton.1 h).symm (hne output)
        obtain ⟨latest, hlatest⟩ := ih hbefore
        exact ⟨latest, isLatest_concat_iff.2 (.inr ⟨hne, hlatest⟩)⟩

/-- What a cache with a capacity holds and has counted after a sequence of requests. -/
structure Records (capacity : Option Nat) (requests : List Request) (c : MemoCache) : Prop where
  capacity_eq : c.capacity = capacity
  fits : c.Fits
  counted : c.hits + c.misses = requests.countP Request.isGet
  latest : ∀ {input output}, c.entries[input]? = some output → IsLatest requests input output
  complete : capacity = none → ∀ {input output}, IsLatest requests input output → c.entries[input]? = some output

theorem records_new (capacity : Option Nat) : Records capacity [] (new capacity) where
  capacity_eq := rfl
  fits := fits_new capacity
  counted := rfl
  latest h := by simp [new] at h
  complete _ := by
    rintro input output ⟨before, after, h, -⟩
    simp at h

variable {capacity : Option Nat} {requests : List Request}

theorem Records.get (h : Records capacity requests c) (input : Tuple) :
    Records capacity (requests ++ [.get input]) (c.get input).2 where
  capacity_eq := (c.capacity_get input).trans h.capacity_eq
  fits := h.fits.get input
  counted := by
    rw [hits_add_misses_get, h.counted, List.countP_append]
    rfl
  latest hx := by
    rw [entries_get] at hx
    exact isLatest_concat_iff.2 (.inr ⟨by simp, h.latest hx⟩)
  complete hcapacity := by
    intro x y hlatest
    rw [entries_get]
    rcases isLatest_concat_iff.1 hlatest with hget | ⟨-, hlatest⟩
    · cases hget
    · exact h.complete hcapacity hlatest

theorem Records.insert (h : Records capacity requests c) (input output : Tuple) :
    Records capacity (requests ++ [.insert input output]) (c.insert input output) := by
  obtain ⟨hhits, hmisses, hcapacity⟩ := c.counts_insert input output
  refine ⟨hcapacity.trans h.capacity_eq, h.fits.insert input output, ?counted, ?latest, ?complete⟩
  case counted =>
    rw [hhits, hmisses, h.counted, List.countP_append]
    rfl
  case latest =>
    intro x y hx
    rcases h.fits.of_entries_insert hx with ⟨rfl, rfl⟩ | ⟨hne, hx⟩
    · exact isLatest_concat_iff.2 (.inl rfl)
    · exact isLatest_concat_iff.2 (.inr ⟨fun other hother => hne (by injection hother), h.latest hx⟩)
  case complete =>
    intro hunbounded x y hlatest
    rw [entries_insert_of_unbounded (h.capacity_eq.trans hunbounded)]
    rcases isLatest_concat_iff.1 hlatest with hequal | ⟨hother, hlatest⟩
    · obtain ⟨rfl, rfl⟩ := Request.insert.inj hequal
      exact if_pos rfl
    · rw [if_neg fun hinput => hother output (by rw [hinput])]
      exact h.complete hunbounded hlatest

/-- A new cache keeps and counts the requests as they come. -/
theorem records_used (capacity : Option Nat) (requests : List Request) :
    Records capacity requests (used capacity requests) := by
  induction requests using List.reverseRecOn with
  | nil => exact records_new capacity
  | append_singleton requests request ih =>
    rw [used_concat]
    cases request with
    | get input => exact ih.get input
    | insert input output => exact ih.insert input output

/-- A cache is a faithful bounded map.  After any sequence of requests it holds no more results than its capacity, and
none at all with capacity zero.  Every answer is the latest result inserted for this input, and without a capacity all
inputs that have been inserted have one.  A result that has just been inserted is found unless the capacity is zero.
Every request for a result has been counted once. -/
theorem used_faithful (capacity : Option Nat) (requests : List Request) :
    (∀ n, capacity = some n → (used capacity requests).size ≤ n) ∧
      (capacity = some 0 → (used capacity requests).isEmpty = true) ∧
      (∀ input output, ((used capacity requests).get input).1 = some output → IsLatest requests input output) ∧
      (capacity = none → ∀ input,
        ((used capacity requests).get input).1.isSome = true ↔ ∃ output, .insert input output ∈ requests) ∧
      (capacity ≠ some 0 → ∀ input output,
        (((used capacity requests).insert input output).get input).1 = some output) ∧
      (used capacity requests).hits + (used capacity requests).misses = requests.countP Request.isGet := by
  have h := records_used capacity requests
  refine ⟨fun n hn => h.fits n (h.capacity_eq.trans hn), fun hzero => h.fits.isEmpty (h.capacity_eq.trans hzero),
    fun input output hget => ?hit, fun hunbounded input => ?unbounded, fun hpos input output => ?inserted, h.counted⟩
  case hit =>
    rw [fst_get] at hget
    exact h.latest hget
  case unbounded =>
    rw [fst_get, Option.isSome_iff_exists, ← exists_isLatest_iff]
    exact exists_congr fun output => ⟨h.latest, h.complete hunbounded⟩
  case inserted =>
    rw [fst_get]
    exact entries_insert_of_ne_zero (by rwa [h.capacity_eq]) input output

/-- A full cache is emptied, so the results inserted before are gone. -/
example : (used (some 2) [.insert [1] [4], .insert [2] [5], .insert [3] [6]]).size = 1 ∧
    ((used (some 2) [.insert [1] [4], .insert [2] [5], .insert [3] [6]]).get [1]).1 = none := by cbv

end MemoCache

end DiceTally
