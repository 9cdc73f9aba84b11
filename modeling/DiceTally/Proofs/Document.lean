import DiceTally.Document
import DiceTally.Proofs.Distribution
import DiceTally.Proofs.Except
import DiceTally.Proofs.Json.Text
import Mathlib.Data.List.Perm.Basic

/-!
# Stored distributions are read back

The key of a result is read back as this result (`decodeKey_encodeKey`), so no two results share one.  Of a document
the members are read, each under its key, as long as all of their values can be read (`parse?_prettyObject`).  The
members are the entries in another order, so a distribution that is read back has the results of the stored one, each
with what is read of its weight (`get?_of_ofText_toText`); weights that are natural numbers below `bound64` are read
back as they are (`ofText_toText`).
-/

namespace DiceTally

open Json (prettyObject parse? readValue)

/-! ### Keys -/

theorem toList_compact_int (n : Int) : (Json.number (.int n)).compact.toList = signedDigits n := by
  rw [Json.compact, JsonNumber.text, toList_toString_int]

/-- Integers in range as JSON values. -/
def Json.IsInt (value : Json) : Prop :=
  ∃ n : Int, value = .number (.int n) ∧ -Value.bound ≤ n ∧ n < bound64

theorem readValue_isInt {value : Json} (h : value.IsInt) {closing : Char} (hclosing : closing ∈ [']', '\x7d'])
    {blanks rest : List Char} (hblanks : ∀ b ∈ blanks, isJsonBlank b = true) (hrest : EndsItem closing rest)
    (depth : Nat) : readValue depth (blanks ++ (value.compact.toList ++ rest)) = some (value, rest) := by
  obtain ⟨n, rfl, hlow, hhigh⟩ := h
  rw [toList_compact_int]
  exact readValue_int hlow hhigh hblanks (hrest.endsNumber hclosing) depth

theorem starts_of_isInt {value : Json} (h : value.IsInt) :
    ∃ blanks c cs, value.compact.toList = blanks ++ c :: cs ∧ (∀ b ∈ blanks, isJsonBlank b = true) ∧
      isJsonBlank c = false ∧ c ≠ ']' := by
  obtain ⟨n, rfl, -, -⟩ := h
  obtain ⟨c, cs, hdigits⟩ := List.exists_cons_of_ne_nil (signedDigits_ne_nil n)
  have hc : c.isDigit = true ∨ c = '-' := mem_signedDigits (by rw [hdigits]; exact List.mem_cons_self)
  have hother : ∀ d ∈ [' ', '\t', '\n', '\r', ']'], c ≠ d := ne_of_startsNumber hc (by decide)
  refine ⟨[], c, cs, by rw [toList_compact_int, hdigits, List.nil_append], by simp, ?_, hother ']' (by decide)⟩
  simp [isJsonBlank, hother]

namespace Document

/-- The JSON values in the key of a result. -/
def keyItems (key : Tuple) : List Json := key.map fun v => .number (.int v.toInt)

theorem isInt_of_mem_keyItems {key : Tuple} {value : Json} (h : value ∈ keyItems key) : value.IsInt := by
  obtain ⟨v, -, rfl⟩ := List.mem_map.1 h
  have hbound : (Value.bound : Int) ≤ bound64 := by decide
  exact ⟨v.toInt, rfl, v.le_toInt, Int.lt_of_lt_of_le v.toInt_lt hbound⟩

theorem toList_encodeKey (key : Tuple) :
    (encodeKey key).toList =
      '[' :: ((',' :: [' ']).intercalate ((keyItems key).map fun value => value.compact.toList) ++ [']']) := by
  have hitems : (key.map Value.text).map String.toList = (keyItems key).map fun value => value.compact.toList := by
    rw [keyItems, List.map_map, List.map_map]
    refine List.map_congr_left fun v _ => ?_
    exact (Value.toList_text v).trans (toList_compact_int v.toInt).symm
  have hsep : ", ".toList = [',', ' '] := by decide
  rw [encodeKey, Tuple.text, String.toList_append, String.toList_append, String.toList_intercalate, hitems, hsep]
  rfl

theorem parse?_encodeKey (key : Tuple) : parse? (encodeKey key) = some (.array (keyItems key)) := by
  have hread : readItems (readValue 126) ']'
      ([] ++ ((',' :: [' ']).intercalate ((keyItems key).map fun value => value.compact.toList) ++ ([] ++ ']' :: []))) =
        ((keyItems key).mapM some).map fun items => (items, []) :=
    readItems_intercalate
      (fun value hvalue blanks rest hblanks hrest =>
        readValue_isInt (isInt_of_mem_keyItems hvalue) (by decide) hblanks hrest 126)
      (fun value hvalue => starts_of_isInt (isInt_of_mem_keyItems hvalue)) (by decide)
      (List.all_eq_true.1 (by decide)) (by simp) (by simp) []
  have hvalue : readValue 127 (encodeKey key).toList = some (.array (keyItems key), []) := by
    rw [toList_encodeKey, readValue_array]
    simp only [List.nil_append] at hread
    rw [hread, mapM_some]
    rfl
  rw [parse?, Json.maxDepth, hvalue]
  rfl

theorem mapM_keyItems (key : Tuple) : (keyItems key).mapM valueOfJson? = some key := by
  induction key with
  | nil => rfl
  | cons v key ih =>
    have hv : valueOfJson? (.number (.int v.toInt)) = some v := Value.ofInt?_toInt v
    rw [keyItems] at ih
    rw [keyItems, List.map_cons, List.mapM_cons, hv, ih]
    rfl

theorem decodeKey_of_parse? {text : String} {key : Tuple} (h : parse? text = some (.array (keyItems key))) :
    decodeKey text = .ok key := by
  rw [decodeKey, h]
  simp [mapM_keyItems]

/-- The key of a result is read back. -/
theorem decodeKey_encodeKey (key : Tuple) : decodeKey (encodeKey key) = .ok key :=
  decodeKey_of_parse? (parse?_encodeKey key)

/-- No two results share a key. -/
theorem encodeKey_injective : Function.Injective encodeKey := by
  intro key key' h
  have hdecode := decodeKey_encodeKey key
  rw [h, decodeKey_encodeKey] at hdecode
  exact (Except.ok.inj hdecode).symm

theorem mem_intercalate {sep : List Char} {texts : List (List Char)} {c : Char} (h : c ∈ sep.intercalate texts) :
    c ∈ sep ∨ ∃ t ∈ texts, c ∈ t := by
  induction texts with
  | nil => cases h
  | cons t texts ih =>
    cases texts with
    | nil => exact .inr ⟨t, List.mem_cons_self, by simpa using h⟩
    | cons u texts =>
      rw [List.intercalate_cons_cons] at h
      rcases List.mem_append.1 h with h | h
      · rcases List.mem_append.1 h with ht | hsep
        · exact .inr ⟨t, List.mem_cons_self, ht⟩
        · exact .inl hsep
      · rcases ih h with hsep | ⟨t', ht', hc⟩
        · exact .inl hsep
        · exact .inr ⟨t', List.mem_cons_of_mem _ ht', hc⟩

theorem isPlain_of_isDigit {c : Char} (h : c.isDigit = true) : isPlain c = true := by
  have hno : ∀ d ∈ ['"', '\\'], c ≠ d := ne_of_startsNumber (.inl h) (by decide)
  have hcode : 32 ≤ c.toNat := by
    have hlow : 48 ≤ c.toNat := (Char.isDigit_iff_toNat.1 h).1
    omega
  simp [isPlain, hno, hcode]

theorem isPlain_of_mem_encodeKey {key : Tuple} {c : Char} (h : c ∈ (encodeKey key).toList) : isPlain c = true := by
  rw [toList_encodeKey] at h
  rcases List.mem_cons.1 h with rfl | h
  · decide
  rcases List.mem_append.1 h with h | h
  · rcases mem_intercalate h with hsep | ⟨t, ht, hc⟩
    · exact List.all_eq_true.1 (show [',', ' '].all isPlain = true by decide) c hsep
    · obtain ⟨value, hvalue, rfl⟩ := List.mem_map.1 ht
      obtain ⟨n, rfl, -, -⟩ := isInt_of_mem_keyItems hvalue
      rw [toList_compact_int] at hc
      rcases mem_signedDigits hc with hdigit | rfl
      · exact isPlain_of_isDigit hdigit
      · decide
  · rw [List.mem_singleton.1 h]
    decide

/-! ### Documents -/

/-- A member as it stands in a document. -/
def memberText (member : String × Json) : List Char :=
  ' ' :: ' ' :: '"' :: (member.1.toList ++ '"' :: ':' :: ' ' :: member.2.compact.toList)

/-- What is read where a value stands in a document; some texts of values cannot be read. -/
def ReadsAs (value : Json) (read : Option Json) : Prop :=
  ∀ (depth : Nat) (blanks rest : List Char), (∀ b ∈ blanks, isJsonBlank b = true) → EndsItem '\x7d' rest →
    readValue depth (blanks ++ (value.compact.toList ++ rest)) = read.map fun v => (v, rest)

theorem readsAs_of_isInt {value : Json} (h : value.IsInt) : ReadsAs value (some value) :=
  fun depth _ _ hblanks hrest => readValue_isInt h (by decide) hblanks hrest depth

theorem readMember_memberText {member : String × Json} (hplain : ∀ c ∈ member.1.toList, isPlain c = true)
    {read : Option Json} (h : ReadsAs member.2 read) {blanks rest : List Char}
    (hblanks : ∀ b ∈ blanks, isJsonBlank b = true) (hrest : EndsItem '\x7d' rest) (depth : Nat) :
    readMember (readValue depth) (blanks ++ (memberText member ++ rest)) =
      (read.map fun v => (member.1, v)).map fun m => (m, rest) := by
  obtain ⟨key, value⟩ := member
  have hquote (cs : List Char) : skipJsonBlank (blanks ++ (' ' :: ' ' :: '"' :: cs)) = '"' :: cs := by
    rw [skipJsonBlank_append hblanks]
    rfl
  have hcolon (cs : List Char) : skipJsonBlank (':' :: cs) = ':' :: cs := skipJsonBlank_cons (by decide) cs
  have hkey := readStringChars_plain hplain
  have hvalue := h depth [' '] rest (List.all_eq_true.1 (by decide)) hrest
  rw [List.singleton_append] at hvalue
  cases read <;> simp [readMember, memberText, hquote, hcolon, hkey, hvalue, String.ofList_toList]

section Members

variable {ms : List (String × Json)} (hplain : ∀ member ∈ ms, ∀ c ∈ member.1.toList, isPlain c = true)

include hplain

theorem toList_prettyObject (hne : ms ≠ []) :
    (prettyObject ms).toList =
      '\x7b' :: (['\n'] ++ ((',' :: ['\n']).intercalate (ms.map memberText) ++ (['\n'] ++ '\x7d' :: []))) := by
  have hlines : (ms.map fun member => "  " ++ quoteJson member.1 ++ ": " ++ member.2.compact).map String.toList =
      ms.map memberText := by
    rw [List.map_map]
    refine List.map_congr_left fun member hmember => ?_
    have hspaces : "  ".toList = [' ', ' '] := by decide
    have hcolon : ": ".toList = [':', ' '] := by decide
    simp [quoteJson_plain (hplain member hmember), memberText, hspaces, hcolon]
  have hopen : "\x7b\n".toList = ['\x7b', '\n'] := by decide
  have hsep : ",\n".toList = [',', '\n'] := by decide
  have hclose : "\n\x7d".toList = ['\n', '\x7d'] := by decide
  rw [prettyObject, if_neg (by simpa using hne), String.toList_append, String.toList_append,
    String.toList_intercalate, hopen, hsep, hclose]
  simp [← hlines]

/-- The document of members is the object of what is read of these members. -/
theorem parse?_prettyObject {read : Json → Option Json} (h : ∀ member ∈ ms, ReadsAs member.2 (read member.2)) :
    parse? (prettyObject ms) =
      (ms.mapM fun member => (read member.2).map fun v => (member.1, v)).map .ofMembers := by
  have hread {gap tail front : List Char} (hgap : ∀ b ∈ gap, isJsonBlank b = true)
      (htail : ∀ b ∈ tail, isJsonBlank b = true) (hfront : ∀ b ∈ front, isJsonBlank b = true) :
      readItems (readMember (readValue 126)) '\x7d'
        (front ++ ((',' :: gap).intercalate (ms.map memberText) ++ (tail ++ '\x7d' :: []))) =
          (ms.mapM fun member => (read member.2).map fun v => (member.1, v)).map fun vs => (vs, []) :=
    readItems_intercalate
      (fun member hmember blanks rest hblanks hrest =>
        readMember_memberText (hplain member hmember) (h member hmember) hblanks hrest 126)
      (fun member _ => ⟨[' ', ' '], '"', _, rfl, List.all_eq_true.1 (by decide), by decide, by decide⟩)
      (by decide) hgap htail hfront []
  have hvalue : readValue 127 (prettyObject ms).toList =
      (ms.mapM fun member => (read member.2).map fun v => (member.1, v)).map fun vs => (.ofMembers vs, []) := by
    by_cases hne : ms = []
    · subst hne
      have hempty := hread (show ∀ b ∈ [], isJsonBlank b = true by simp) (show ∀ b ∈ [], isJsonBlank b = true by simp)
        (show ∀ b ∈ [], isJsonBlank b = true by simp)
      have htext : (prettyObject []).toList = '\x7b' :: ['\x7d'] := by decide
      rw [htext, readValue_object]
      simp only [List.map_nil, List.intercalate_nil, List.nil_append] at hempty
      rw [hempty]
      rfl
    · have hlines : ∀ b ∈ ['\n'], isJsonBlank b = true := List.all_eq_true.1 (by decide)
      rw [toList_prettyObject hplain hne, readValue_object, hread hlines hlines hlines, Option.map_map]
      rfl
  rw [parse?, Json.maxDepth, hvalue]
  cases ms.mapM fun member => (read member.2).map fun v => (member.1, v) <;> rfl

end Members

/-- Members whose keys differ are only put in order. -/
theorem sortMembers_perm {ms : List (String × Json)} (h : (ms.map Prod.fst).Nodup) : (sortMembers ms).Perm ms := by
  have hdistinct : ms.Pairwise fun a b => ¬compare a.1 b.1 = .eq := by
    rw [List.Nodup, List.pairwise_map] at h
    exact h.imp fun hne heq => hne (Std.LawfulEqCmp.compare_eq_iff_eq.1 heq)
  have hsorted : (sortMembers ms).Pairwise fun a b => ¬compare a.1 b.1 = .eq := Std.TreeMap.distinct_keys_toList
  have hnodup {l : List (String × Json)} (hl : l.Pairwise fun a b => ¬compare a.1 b.1 = .eq) : l.Nodup :=
    hl.imp fun hne heq => hne (Std.LawfulEqCmp.compare_eq_iff_eq.2 (congrArg Prod.fst heq))
  refine (List.perm_ext_iff_of_nodup (hnodup hsorted) (hnodup hdistinct)).2 fun member => ?_
  obtain ⟨key, value⟩ := member
  have hmem : (key, value) ∈ sortMembers ms ↔ (Std.TreeMap.ofList ms)[key]? = some value :=
    Std.TreeMap.mem_toList_iff_getElem?_eq_some
  have hfound {value : Json} (hvalue : (key, value) ∈ ms) : (Std.TreeMap.ofList ms)[key]? = some value :=
    Std.TreeMap.getElem?_ofList_of_mem (Std.LawfulEqCmp.compare_eq_iff_eq.2 rfl) hdistinct hvalue
  rw [hmem]
  constructor
  · intro hget
    by_cases hkey : (ms.map Prod.fst).contains key = true
    · obtain ⟨member, hmember, rfl⟩ := List.mem_map.1 (List.contains_iff_mem.1 hkey)
      rw [hfound hmember] at hget
      rwa [← Option.some.inj hget]
    · have hnone : (Std.TreeMap.ofList ms)[key]? = none :=
        Std.TreeMap.getElem?_ofList_of_contains_eq_false (Bool.eq_false_iff.2 hkey)
      rw [hnone] at hget
      cases hget
  · exact hfound

/-- The result and the weight that a member stands for. -/
def decodeMember (member : String × Json) : Except DocumentError (Tuple × Decimal) := do
  let key ← decodeKey member.1
  let count ← decodeCount member.1 member.2
  return (key, count)

theorem decodeMember_encodeKey (key : Tuple) (value : Json) :
    decodeMember (encodeKey key, value) = (decodeCount (encodeKey key) value).map fun count => (key, count) := by
  rw [decodeMember, decodeKey_encodeKey]
  cases decodeCount (encodeKey key) value <;> rfl

/-- Members are read in order up to the first one that is refused, and added up. -/
theorem ofMembers_eq (ms : List (String × Json)) : ofMembers ms = (ms.mapM decodeMember).map Distribution.ofList := by
  have hfold (d : Distribution) : (ms.foldlM (fun (d : Distribution) (member : String × Json) => do
      let result ← decodeKey member.1
      let count ← decodeCount member.1 member.2
      return d.add result count) d : Except DocumentError Distribution) =
        (ms.mapM decodeMember).map fun results => results.foldl (fun d r => d.add r.1 r.2) d := by
    induction ms generalizing d with
    | nil => rfl
    | cons member ms ih =>
      rw [List.foldlM_cons, List.mapM_cons, decodeMember]
      cases decodeKey member.1 with
      | error e => rfl
      | ok key =>
        cases decodeCount member.1 member.2 with
        | error e => rfl
        | ok count =>
          have hrest := ih (d.add key count)
          cases hresults : ms.mapM decodeMember <;> rw [hresults] at hrest <;> exact hrest
  exact hfold .empty

/-! ### Reading back -/

/-- Weights that are stored as integers without a sign. -/
def Storable (weight : Decimal) : Prop :=
  weight.isWhole = true ∧ 0 ≤ weight.toInt ∧ weight.toInt < bound64

theorem encodeCount_of_storable {weight : Decimal} (h : Storable weight) :
    encodeCount weight = .number (.int weight.toInt) := by
  obtain ⟨hwhole, hlow, hhigh⟩ := h
  have hbound : -Value.bound ≤ weight.toInt := Int.le_trans (by decide) hlow
  unfold encodeCount
  dsimp only
  rw [if_pos (by simpa [hwhole, hbound] using hhigh)]

theorem decodeCount_of_storable (key : String) {weight : Decimal} (h : Storable weight) :
    decodeCount key (encodeCount weight) = .ok (.ofNat weight.toInt.toNat) := by
  have hbound : (bound64 : Nat) < mantissaBound := by decide
  have hint : Decimal.ofInt? weight.toInt = some (.ofNat weight.toInt.toNat) := by
    rw [← Decimal.ofInt?_natCast _ (by have := h.2; omega), Int.toNat_of_nonneg h.2.1]
  rw [encodeCount_of_storable h, decodeCount]
  simp [decimalOfNumber?, hint, Option.filter, Decimal.isBelowZero_ofNat]

theorem isInt_encodeCount {weight : Decimal} (h : Storable weight) : (encodeCount weight).IsInt :=
  ⟨weight.toInt, encodeCount_of_storable h, Int.le_trans (by decide) h.2.1, h.2.2⟩

theorem members_perm (d : Distribution) :
    (members d).Perm (d.entries.map fun entry => (encodeKey entry.1, encodeCount entry.2)) := by
  have hkeys := d.nodup_keys.map encodeKey_injective
  rw [List.map_map] at hkeys
  refine sortMembers_perm ?_
  rw [List.map_map]
  exact hkeys

/-- The members of a document are the entries, each under its own key. -/
theorem mem_members {d : Distribution} {member : String × Json} :
    member ∈ members d ↔ ∃ key weight, d.get? key = some weight ∧ (encodeKey key, encodeCount weight) = member := by
  rw [(members_perm d).mem_iff, List.mem_map]
  constructor
  · rintro ⟨entry, hentry, hmember⟩
    exact ⟨entry.1, entry.2, Distribution.mem_entries.1 hentry, hmember⟩
  · rintro ⟨key, weight, hget, hmember⟩
    exact ⟨(key, weight), Distribution.mem_entries.2 hget, hmember⟩

theorem nodup_keys_members (d : Distribution) : ((members d).map Prod.fst).Nodup := by
  have hkeys := d.nodup_keys.map encodeKey_injective
  rw [((members_perm d).map Prod.fst).nodup_iff, List.map_map]
  rwa [List.map_map] at hkeys

theorem isPlain_of_mem_members {d : Distribution} {member : String × Json} (h : member ∈ members d) :
    ∀ c ∈ member.1.toList, isPlain c = true := by
  obtain ⟨key, weight, -, rfl⟩ := mem_members.1 h
  exact fun c hc => isPlain_of_mem_encodeKey hc

section Reading

variable {d : Distribution} {read : Json → Option Json}
  (hread : ∀ key weight, d.get? key = some weight → ReadsAs (encodeCount weight) (read (encodeCount weight)))

include hread

/-- What is read of a document are the members, as long as all of them can be read. -/
theorem ofText_toText_eq :
    ofText (toText d) =
      match (members d).mapM fun member => (read member.2).map fun v => (member.1, v) with
      | some ms => ofMembers (sortMembers ms)
      | none => .error .malformed := by
  have hmembers : ∀ member ∈ members d, ReadsAs member.2 (read member.2) := by
    intro member hmember
    obtain ⟨key, weight, hget, rfl⟩ := mem_members.1 hmember
    exact hread key weight hget
  rw [ofText, toText, parse?_prettyObject (fun _ => isPlain_of_mem_members) hmembers]
  cases (members d).mapM fun member => (read member.2).map fun v => (member.1, v) <;> rfl

/-- A distribution that is read back has the results of the stored one, each with the count that its member stands
for. -/
theorem get?_of_ofText_toText {loaded : Distribution} (hload : ofText (toText d) = .ok loaded) (key : Tuple) :
    (d.get? key = none → loaded.get? key = none) ∧
      ∀ weight, d.get? key = some weight → ∃ value count, read (encodeCount weight) = some value ∧
        decodeCount (encodeKey key) value = .ok count ∧ loaded.get? key = some count := by
  obtain ⟨ms, hms, hload⟩ : ∃ ms, ((members d).mapM fun member => (read member.2).map fun v => (member.1, v)) =
      some ms ∧ ofMembers (sortMembers ms) = .ok loaded := by
    rw [ofText_toText_eq hread] at hload
    split at hload
    · exact ⟨_, ‹_›, hload⟩
    · cases hload
  rw [ofMembers_eq] at hload
  obtain ⟨decoded, hdecoded, rfl⟩ := map_eq_ok_iff.1 hload
  have hpairs := mapM_eq_some_iff.1 hms
  -- the members are sorted twice, and the order of the results does not matter for a distribution
  have hkeys : ms.map Prod.fst = (members d).map Prod.fst := by
    rw [← List.forall₂_eq_eq_eq, List.forall₂_map_left_iff, List.forall₂_map_right_iff]
    refine List.Forall₂.flip (hpairs.imp fun member m h => ?_)
    obtain ⟨v, -, rfl⟩ := Option.map_eq_some_iff.1 h
    rfl
  have hsorted : (sortMembers ms).Perm ms := sortMembers_perm (hkeys ▸ nodup_keys_members d)
  obtain ⟨unsorted, hunsorted, hperm⟩ := List.perm_comp_forall₂ hsorted.symm (mapM_eq_ok_iff.1 hdecoded)
  obtain ⟨results, hresults, hperm'⟩ :=
    List.perm_comp_forall₂ (members_perm d).symm (forall₂_trans (T := fun member result => ∃ value,
      read member.2 = some value ∧ decodeMember (member.1, value) = .ok result)
      (fun member m result h hdecode => by
        obtain ⟨v, hv, rfl⟩ := Option.map_eq_some_iff.1 h
        exact ⟨v, hv, hdecode⟩) hpairs hunsorted)
  rw [List.forall₂_map_left_iff] at hresults
  have hcounts : List.Forall₂ (fun entry result => entry.1 = result.1 ∧ ∃ value,
      read (encodeCount entry.2) = some value ∧ decodeCount (encodeKey entry.1) value = .ok result.2)
      d.entries results := by
    refine hresults.imp fun entry result h => ?_
    obtain ⟨value, hvalue, hdecode⟩ := h
    rw [decodeMember_encodeKey] at hdecode
    obtain ⟨count, hcount, rfl⟩ := map_eq_ok_iff.1 hdecode
    exact ⟨rfl, value, hvalue, hcount⟩
  have hkeys : d.entries.map Prod.fst = results.map Prod.fst := by
    rw [← List.forall₂_eq_eq_eq, List.forall₂_map_left_iff, List.forall₂_map_right_iff]
    exact hcounts.imp fun _ _ h => h.1
  have hall : results.Perm decoded := hperm'.trans hperm
  have hnodup : (decoded.map Prod.fst).Nodup := (hall.map Prod.fst).nodup_iff.1 (hkeys ▸ d.nodup_keys)
  constructor
  · intro hnone
    rw [Option.eq_none_iff_forall_ne_some]
    intro count hcount
    -- a result of the document is one of the entries
    have hmem := hall.mem_iff.2 ((Distribution.get?_ofList_of_nodup hnodup).1 hcount)
    have hkey : key ∈ d.entries.map Prod.fst := hkeys ▸ List.mem_map.2 ⟨_, hmem, rfl⟩
    obtain ⟨entry, hentry, rfl⟩ := List.mem_map.1 hkey
    rw [Distribution.mem_entries.1 hentry] at hnone
    cases hnone
  · intro weight hweight
    obtain ⟨⟨_, count⟩, hmem, rfl, value, hvalue, hcount⟩ :=
      exists_of_mem_forall₂ hcounts (Distribution.mem_entries.2 hweight)
    exact ⟨value, count, hvalue, hcount, (Distribution.get?_ofList_of_nodup hnodup).2 (hall.mem_iff.1 hmem)⟩

end Reading

/-- A distribution is read back with the integer part of each weight. -/
theorem ofText_toText {d : Distribution} (h : ∀ entry ∈ d.entries, Storable entry.2) :
    ∃ loaded, ofText (toText d) = .ok loaded ∧
      ∀ k, loaded.get? k = (d.get? k).map fun weight => .ofNat weight.toInt.toNat := by
  have hstorable {key : Tuple} {weight : Decimal} (hget : d.get? key = some weight) : Storable weight :=
    h _ (Distribution.mem_entries.2 hget)
  have hread : ∀ key weight, d.get? key = some weight → ReadsAs (encodeCount weight) (some (encodeCount weight)) :=
    fun _ _ hget => readsAs_of_isInt (isInt_encodeCount (hstorable hget))
  obtain ⟨loaded, hload⟩ : ∃ loaded, ofText (toText d) = .ok loaded := by
    have hmembers : ((members d).mapM fun member => (some member.2).map fun v => (member.1, v)) = some (members d) :=
      mapM_some _
    rw [ofText_toText_eq hread, hmembers]
    dsimp only
    rw [ofMembers_eq]
    obtain ⟨results, hresults⟩ : ∃ results, (sortMembers (members d)).mapM decodeMember = .ok results := by
      refine exists_mapM_eq_ok fun member hmember => ?_
      obtain ⟨key, weight, hget, rfl⟩ := mem_members.1 ((sortMembers_perm (nodup_keys_members d)).mem_iff.1 hmember)
      rw [decodeMember_encodeKey, decodeCount_of_storable _ (hstorable hget)]
      exact ⟨_, rfl⟩
    exact ⟨.ofList results, by rw [hresults]; rfl⟩
  refine ⟨loaded, hload, fun k => ?_⟩
  obtain ⟨hnone, hsome⟩ := get?_of_ofText_toText hread hload k
  cases hget : d.get? k with
  | none => exact hnone hget
  | some weight =>
    obtain ⟨value, count, hvalue, hcount, hloaded⟩ := hsome weight hget
    cases hvalue
    rw [decodeCount_of_storable _ (hstorable hget)] at hcount
    cases hcount
    exact hloaded

end Document

end DiceTally
