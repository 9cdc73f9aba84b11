import DiceTally.Proofs.Decimal.Order
import DiceTally.Proofs.Keys

/-!
# Loading a document

A member of a document stands for a result and its count when its key denotes the result and its value is a number in
range that is not negative (`Document.StandsFor`).  A document is loaded exactly when each of its members stands for
something; the counts of members with the same result are added up in the order of the keys, and the first member in
this order that stands for nothing tells why a document is refused (`Document.ofJson_ofMembers_cases`).
-/

namespace DiceTally

/-! ### Added counts -/

namespace Distribution

/-- The weights of one result, added up in order. -/
def sumAt (results : List (Tuple × Decimal)) (key : Tuple) : Decimal :=
  ((results.filter fun r => r.1 = key).map Prod.snd).foldl Decimal.addSaturating .zero

theorem sumAt_append_singleton (results : List (Tuple × Decimal)) (r : Tuple × Decimal) (key : Tuple) :
    sumAt (results ++ [r]) key = if r.1 = key then (sumAt results key).addSaturating r.2 else sumAt results key := by
  unfold sumAt
  rw [List.filter_append, List.map_append, List.foldl_append]
  by_cases h : r.1 = key <;> simp [h]

/-- A distribution has the added weights of the results that it is made of, and no other results. -/
theorem get?_ofList (results : List (Tuple × Decimal)) (key : Tuple) :
    (ofList results).get? key = if key ∈ results.map Prod.fst then some (sumAt results key) else none := by
  induction results using List.reverseRecOn with
  | nil =>
    have hempty : ofList [] = empty := rfl
    rw [hempty, get?_empty]
    rfl
  | append_singleton results r ih =>
    have hadd : ofList (results ++ [r]) = (ofList results).add r.1 r.2 := by simp [ofList]
    have hmem : key ∈ (results ++ [r]).map Prod.fst ↔ key ∈ results.map Prod.fst ∨ r.1 = key := by
      simp [eq_comm]
    rw [hadd, get?_add, sumAt_append_singleton]
    simp only [hmem]
    by_cases hkey : r.1 = key
    · subst hkey
      -- what has not occurred before is added to zero, as is the first weight of a sum
      have hbefore : ((ofList results).get? r.1).getD .zero = sumAt results r.1 := by
        rw [ih]
        split
        · rfl
        · rename_i hnew
          have hnone : results.filter (fun x => decide (x.1 = r.1)) = [] := by
            refine List.filter_eq_nil_iff.2 fun x hx heq => hnew ?_
            exact List.mem_map.2 ⟨x, hx, of_decide_eq_true heq⟩
          rw [sumAt, hnone]
          rfl
      simp [hbefore]
    · simp only [if_neg hkey, or_iff_left hkey]
      exact ih

theorem sumAt_nonneg {results : List (Tuple × Decimal)} (h : ∀ r ∈ results, 0 ≤ r.2.toRat) (key : Tuple) :
    0 ≤ (sumAt results key).toRat := by
  have hzero : Decimal.zero.toRat = 0 := by simp [Decimal.toRat, Decimal.signed, Decimal.zero]
  have hweights : ∀ w ∈ (results.filter fun r => r.1 = key).map Prod.snd, 0 ≤ w.toRat := by
    intro w hw
    obtain ⟨r, hr, rfl⟩ := List.mem_map.1 hw
    exact h r (List.mem_of_mem_filter hr)
  exact hzero.ge.trans (Decimal.le_foldl_addSaturating hzero.ge hweights).1

end Distribution

namespace Document

/-! ### What a member stands for -/

/-- A number in range that is not negative. -/
def IsCount (value : Json) (count : Decimal) : Prop :=
  ∃ n, value = .number n ∧ decimalOfNumber? n = some count ∧ 0 ≤ count.toRat

/-- A member whose key denotes a result and whose value is a count. -/
def StandsFor (member : String × Json) (r : Tuple × Decimal) : Prop :=
  Denotes member.1.toList r.1 ∧ IsCount member.2 r.2

variable {key text : String} {value : Json} {count : Decimal} {member : String × Json} {r : Tuple × Decimal}
  {e : DocumentError}

theorem decodeCount_cases (key : String) (value : Json) :
    (∃ count, decodeCount key value = .ok count ∧ IsCount value count) ∨
      decodeCount key value = .error (.invalidCount key value.compact) ∧ ¬∃ count, IsCount value count := by
  unfold decodeCount
  dsimp only
  split
  · rename_i count hcount
    left
    split at hcount
    · rename_i n
      obtain ⟨hn, hsign⟩ := Option.filter_eq_some_iff.1 hcount
      exact ⟨count, rfl, n, rfl, hn, Decimal.isBelowZero_eq_false_iff.1 (by simpa using hsign)⟩
    · cases hcount
  · rename_i hcount
    refine .inr ⟨rfl, ?_⟩
    rintro ⟨count, n, rfl, hn, hsign⟩
    rw [← Decimal.isBelowZero_eq_false_iff] at hsign
    simp [hn, hsign, Option.filter] at hcount

theorem decodeCount_eq_ok_iff : decodeCount key value = .ok count ↔ IsCount value count := by
  rcases decodeCount_cases key value with ⟨count', hok, hcount'⟩ | ⟨herror, hnone⟩
  · rw [hok]
    constructor
    · rintro ⟨⟩
      exact hcount'
    · rintro ⟨n, rfl, hn, -⟩
      obtain ⟨n', hvalue, hn', -⟩ := hcount'
      cases hvalue
      rw [hn] at hn'
      rw [Option.some.inj hn']
  · rw [herror]
    exact iff_of_false (fun h => by cases h) fun h => hnone ⟨count, h⟩

theorem decodeCount_eq_error_iff :
    decodeCount key value = .error e ↔ (¬∃ count, IsCount value count) ∧ e = .invalidCount key value.compact := by
  rcases decodeCount_cases key value with ⟨count, hok, hcount⟩ | ⟨herror, hnone⟩
  · rw [hok]
    exact iff_of_false (fun h => by cases h) fun h => h.1 ⟨count, hcount⟩
  · rw [herror]
    simp [hnone, eq_comm]

theorem decodeMember_eq_ok_iff : decodeMember member = .ok r ↔ StandsFor member r := by
  obtain ⟨key, count⟩ := r
  unfold decodeMember StandsFor
  simp only [bind_eq_ok_iff, decodeKey_eq_ok_iff, decodeCount_eq_ok_iff]
  constructor
  · rintro ⟨_, hkey, _, hcount, h⟩
    cases h
    exact ⟨hkey, hcount⟩
  · rintro ⟨hkey, hcount⟩
    exact ⟨key, hkey, count, hcount, rfl⟩

/-- Why a member is refused; the key is looked at first. -/
def RefusedAs (member : String × Json) (e : DocumentError) : Prop :=
  (¬∃ key, Denotes member.1.toList key) ∧ e = .invalidKey member.1 ∨
    (∃ key, Denotes member.1.toList key) ∧ (¬∃ count, IsCount member.2 count) ∧
      e = .invalidCount member.1 member.2.compact

theorem decodeMember_eq_error_iff : decodeMember member = .error e ↔ RefusedAs member e := by
  have hkeys := decodeKey_cases.2.2.2 member.1 e
  unfold decodeMember RefusedAs
  rw [bind_eq_error_iff, hkeys, and_comm (a := e = _)]
  refine or_congr Iff.rfl ?_
  simp only [bind_eq_error_iff, decodeKey_eq_ok_iff, decodeCount_eq_error_iff]
  constructor
  · rintro ⟨key, hkey, h | ⟨count, -, h⟩⟩
    · exact ⟨⟨key, hkey⟩, h⟩
    · cases h
  · rintro ⟨⟨key, hkey⟩, h⟩
    exact ⟨key, hkey, .inl h⟩

/-! ### The members in order -/

theorem ordered_sortMembers (written : List (String × Json)) :
    (sortMembers written).Pairwise fun a b => compare a.1 b.1 = .lt := Std.TreeMap.ordered_keys_toList

/-- In a list in order the first item of a kind has only smaller ones before it. -/
theorem exists_first_iff {members : List (String × Json)} (hordered : members.Pairwise fun a b => compare a.1 b.1 = .lt)
    {Good Bad : String × Json → Prop} :
    (∃ before member after, members = before ++ member :: after ∧ (∀ earlier ∈ before, Good earlier) ∧ Bad member) ↔
      ∃ member ∈ members, (∀ earlier ∈ members, compare earlier.1 member.1 = .lt → Good earlier) ∧ Bad member := by
  constructor
  · rintro ⟨before, member, after, rfl, hbefore, hbad⟩
    refine ⟨member, by simp, fun earlier hearlier hlt => ?_, hbad⟩
    have hafter := (List.pairwise_append.1 hordered).2.1
    rcases List.mem_append.1 hearlier with hmem | hmem
    · exact hbefore earlier hmem
    · exfalso
      rcases List.mem_cons.1 hmem with rfl | hmem
      · have hself : compare earlier.1 earlier.1 = .eq := Std.LawfulEqCmp.compare_eq_iff_eq.2 rfl
        rw [hself] at hlt
        cases hlt
      · have hgt := Std.OrientedCmp.gt_of_lt ((List.pairwise_cons.1 hafter).1 earlier hmem)
        rw [hlt] at hgt
        cases hgt
  · rintro ⟨member, hmember, hearlier, hbad⟩
    obtain ⟨before, after, rfl⟩ := List.append_of_mem hmember
    refine ⟨before, member, after, rfl, fun earlier hmem => hearlier earlier (List.mem_append_left _ hmem) ?_, hbad⟩
    exact (List.pairwise_append.1 hordered).2.2 earlier hmem member List.mem_cons_self

/-- A document is loaded exactly when each of its members stands for a result and a count.  Then it has these results,
each with the counts of its members added up in the order of their keys, and none of the sums is negative.  Otherwise it
is refused for the first member in this order that stands for nothing, for its key before its value. -/
theorem ofJson_ofMembers_cases (written : List (String × Json)) :
    ((∃ d, ofJson (.ofMembers written) = .ok d) ↔ ∀ member ∈ sortMembers written, ∃ r, StandsFor member r) ∧
      (∀ d, ofJson (.ofMembers written) = .ok d →
        ∃ results, List.Forall₂ StandsFor (sortMembers written) results ∧
          (∀ key, d.get? key = if key ∈ results.map Prod.fst then some (Distribution.sumAt results key) else none) ∧
          ∀ key count, d.get? key = some count → 0 ≤ count.toRat) ∧
      ∀ e, ofJson (.ofMembers written) = .error e ↔
        ∃ member ∈ sortMembers written,
          (∀ earlier ∈ sortMembers written, compare earlier.1 member.1 = .lt → ∃ r, StandsFor earlier r) ∧
            RefusedAs member e := by
  have hload : ofJson (.ofMembers written) = ((sortMembers written).mapM decodeMember).map .ofList :=
    ofMembers_eq (sortMembers written)
  rw [hload]
  refine ⟨?accepted, ?counts, ?refused⟩
  case accepted =>
    constructor
    · rintro ⟨d, hd⟩ member hmember
      obtain ⟨results, hresults, -⟩ := map_eq_ok_iff.1 hd
      obtain ⟨r, -, hr⟩ := exists_of_mem_forall₂ (mapM_eq_ok_iff.1 hresults) hmember
      exact ⟨r, decodeMember_eq_ok_iff.1 hr⟩
    · intro h
      have hall : ∀ member ∈ sortMembers written, ∃ r, decodeMember member = .ok r := fun member hmember =>
        (h member hmember).imp fun r hr => decodeMember_eq_ok_iff.2 hr
      obtain ⟨results, hresults⟩ := exists_mapM_eq_ok hall
      exact ⟨.ofList results, by rw [hresults]; rfl⟩
  case counts =>
    intro d hd
    obtain ⟨results, hresults, rfl⟩ := map_eq_ok_iff.1 hd
    have hstands : List.Forall₂ StandsFor (sortMembers written) results :=
      (mapM_eq_ok_iff.1 hresults).imp fun _ _ => decodeMember_eq_ok_iff.1
    have hcounts : ∀ r ∈ results, 0 ≤ r.2.toRat := by
      intro r hr
      obtain ⟨member, -, -, n, -, -, hsign⟩ := exists_of_mem_forall₂ hstands.flip hr
      exact hsign
    refine ⟨results, hstands, Distribution.get?_ofList results, fun key count hcount => ?_⟩
    rw [Distribution.get?_ofList] at hcount
    split at hcount
    · obtain rfl := Option.some.inj hcount
      exact Distribution.sumAt_nonneg hcounts key
    · cases hcount
  case refused =>
    intro e
    have herror : ((sortMembers written).mapM decodeMember).map Distribution.ofList = .error e ↔
        (sortMembers written).mapM decodeMember = .error e := by
      cases (sortMembers written).mapM decodeMember <;> simp [Except.map]
    rw [herror, mapM_eq_error_iff]
    simp only [decodeMember_eq_ok_iff, decodeMember_eq_error_iff]
    exact exists_first_iff (ordered_sortMembers written)

/-- Three spellings of one result, and a count of minus zero. -/
def spellings : List (String × Json) :=
  [("[1]", .number (.int 2)), ("1", .number (.int 3)), (" [ 1 ] ", .number (.float 0.5)),
    ("[2, 2]", .number (.float (-0)))]

/-- A member with a wrong key between members with wrong values. -/
def wrongMembers : List (String × Json) :=
  [("[7]", .string "two"), ("[1.5]", .null), ("[0]", .number (.int 1)), ("[4]", .number (.int (-1)))]

theorem ofJson_ofMembers_cases_spellings :
    (∃ d, ofJson (.ofMembers spellings) = .ok d ∧ d.get? [1] = Decimal.ofText? "5.5" ∧
      ∃ results, List.Forall₂ StandsFor (sortMembers spellings) results ∧
        some (Distribution.sumAt results [1]) = d.get? [1]) ∧
    ofJson (.ofMembers wrongMembers) = .error (.invalidKey "[1.5]") ∧
      ∃ member ∈ sortMembers wrongMembers, RefusedAs member (.invalidKey "[1.5]") := by
  have hcounts : (ofJson (.ofMembers spellings)).toOption.map (·.get? [1]) =
      some (Decimal.ofText? "5.5") := by decide +kernel
  have hrefused : (match ofJson (.ofMembers wrongMembers) with | .error e => some e | .ok _ => none) =
      some (.invalidKey "[1.5]") := by decide +kernel
  constructor
  · cases hload : ofJson (.ofMembers spellings) with
    | error e =>
      rw [hload] at hcounts
      cases hcounts
    | ok d =>
      rw [hload] at hcounts
      have hcount : d.get? [1] = Decimal.ofText? "5.5" := Option.some.inj hcounts
      obtain ⟨results, hresults, hget, -⟩ := (ofJson_ofMembers_cases spellings).2.1 d hload
      refine ⟨d, rfl, hcount, results, hresults, ?_⟩
      have hsum := hget [1]
      split at hsum
      · exact hsum.symm
      · rw [hsum] at hcount
        exact absurd hcount (by decide +kernel)
  · cases hload : ofJson (.ofMembers wrongMembers) with
    | ok d =>
      rw [hload] at hrefused
      cases hrefused
    | error e =>
      rw [hload] at hrefused
      obtain rfl := Option.some.inj hrefused
      obtain ⟨member, hmember, -, hrefusedAs⟩ := ((ofJson_ofMembers_cases wrongMembers).2.2 _).1 hload
      exact ⟨rfl, member, hmember, hrefusedAs⟩

end Document

end DiceTally
