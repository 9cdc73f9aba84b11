import DiceTally.Proofs.Condition.Grammar

/-!
# The passes over a condition

Reading a condition gathers its tokens into nodes and then applies brackets, `not`, `and` and `or` one after the
other.  Every list between two passes is the list of tokens cut into parts (`Spelled`), and a pass only joins parts
by a rule of the grammar.  So what is read derives from the grammar (`sentence_of_parse`).
-/

namespace DiceTally

namespace Condition

/-! ### Lists cut out of tokens -/

/-- The tokens are those of the elements of a list, one after the other. -/
inductive Spelled {α : Type} (Spells : α → List String → Prop) : List α → List String → Prop
  | nil : Spelled Spells [] []
  | cons {x : α} {xs : List α} {ts us : List String} :
    Spells x ts → Spelled Spells xs us → Spelled Spells (x :: xs) (ts ++ us)

namespace Spelled

variable {α : Type} {Spells : α → List String → Prop}

theorem singleton {x : α} {ts : List String} (h : Spells x ts) : Spelled Spells [x] ts := by
  have := Spelled.cons h .nil
  rwa [List.append_nil] at this

theorem append {xs ys : List α} {ts us : List String} (h : Spelled Spells xs ts) (h' : Spelled Spells ys us) :
    Spelled Spells (xs ++ ys) (ts ++ us) := by
  induction h with
  | nil => exact h'
  | cons hx _ ih =>
    rw [List.cons_append, List.append_assoc]
    exact .cons hx ih

theorem of_cons {x : α} {xs : List α} {ts : List String} (h : Spelled Spells (x :: xs) ts) :
    ∃ us vs, ts = us ++ vs ∧ Spells x us ∧ Spelled Spells xs vs := by
  cases h with
  | cons hx hxs => exact ⟨_, _, rfl, hx, hxs⟩

theorem of_append {xs ys : List α} {ts : List String} (h : Spelled Spells (xs ++ ys) ts) :
    ∃ us vs, ts = us ++ vs ∧ Spelled Spells xs us ∧ Spelled Spells ys vs := by
  induction xs generalizing ts with
  | nil => exact ⟨[], ts, rfl, .nil, h⟩
  | cons x xs ih =>
    obtain ⟨us, vs, rfl, hx, hrest⟩ := h.of_cons
    obtain ⟨vs, ws, rfl, hxs, hys⟩ := ih hrest
    exact ⟨us ++ vs, ws, (List.append_assoc ..).symm, .cons hx hxs, hys⟩

theorem of_singleton {x : α} {ts : List String} (h : Spelled Spells [x] ts) : Spells x ts := by
  obtain ⟨us, vs, rfl, hx, hnil⟩ := h.of_cons
  cases hnil
  rwa [List.append_nil]

end Spelled

/-- What a node stands for among the tokens. -/
inductive SpellsNode : Node → List String → Prop
  | opening : SpellsNode .opening ["["]
  | closing : SpellsNode .closing ["]"]
  | connective (k : Connective) : SpellsNode (.piece (.connective k)) [k.keyword]
  | leaf {c : Condition} {ts : List String} : Leaf ts c → SpellsNode (.piece (.condition c)) ts

/-- What a piece stands for among the tokens when its conditions are of the given level. -/
inductive SpellsPiece (level : Level) : Piece → List String → Prop
  | connective (k : Connective) : SpellsPiece level (.connective k) [k.keyword]
  | condition {c : Condition} {ts : List String} : Derives level ts c → SpellsPiece level (.condition c) ts

/-! ### Gathering nodes -/

theorem spellsNode_of_marker? {t : String} {node : Node} (h : marker? t = some node) : SpellsNode node [t] := by
  unfold marker? at h
  split at h
  · cases h; exact .opening
  · cases h; exact .closing
  · cases h; exact .connective .not
  · cases h; exact .connective .and
  · cases h; exact .connective .or
  · cases h

theorem spelled_of_run {pending : List String} {found : List Node} (h : run pending = .ok found) :
    Spelled SpellsNode found pending := by
  unfold run at h
  split at h
  · rename_i hempty
    cases h
    rw [List.isEmpty_iff.1 hempty]
    exact .nil
  · obtain ⟨c, hc, rfl⟩ := map_eq_ok_iff.1 h
    exact .singleton (.leaf (Leaf_of_leaf hc))

theorem spelled_of_nodes {pending tokens : List String} {found : List Node} (h : nodes pending tokens = .ok found) :
    Spelled SpellsNode found (pending ++ tokens) := by
  induction tokens generalizing pending found with
  | nil =>
    rw [List.append_nil]
    exact spelled_of_run h
  | cons t ts ih =>
    unfold nodes at h
    split at h
    · have := ih h
      rwa [List.append_assoc] at this
    · rename_i node hnode
      obtain ⟨before, hbefore, h⟩ := bind_eq_ok_iff.1 h
      obtain ⟨after, hafter, h⟩ := bind_eq_ok_iff.1 h
      cases h
      exact (spelled_of_run hbefore).append (.cons (spellsNode_of_marker? hnode) (ih hafter))

/-! ### Applying `not` -/

theorem spelled_of_applyNot {ps qs : List Piece} {ts : List String} (h : applyNot ps = .ok qs)
    (hps : Spelled (SpellsPiece .atom) ps ts) : Spelled (SpellsPiece .negation) qs ts := by
  fun_induction applyNot ps generalizing qs ts with
  | case1 =>
    cases h
    cases hps
    exact .nil
  | case2 c rest ih =>
    obtain ⟨qs, hqs, h⟩ := bind_eq_ok_iff.1 h
    cases h
    obtain ⟨_, _, rfl, hnot, htail⟩ := hps.of_cons
    obtain ⟨us, vs, rfl, hcondition, hrest⟩ := htail.of_cons
    cases hnot
    cases hcondition with
    | condition hc =>
      show Spelled _ _ (("not" :: us) ++ vs)
      exact .cons (.condition (.not hc)) (ih hqs hrest)
  | case3 => cases h
  | case4 => cases h
  | case5 piece rest _ _ _ ih =>
    obtain ⟨qs, hqs, h⟩ := bind_eq_ok_iff.1 h
    cases h
    obtain ⟨us, vs, rfl, hpiece, hrest⟩ := hps.of_cons
    refine .cons ?_ (ih hqs hrest)
    cases hpiece with
    | connective k => exact .connective k
    | condition hc => exact .condition (.plain hc)

/-! ### Applying `and` and `or` -/

/-- The levels that a binary connective stands between: what it joins on its right, and what it makes. -/
structure Join.Joins (join : Join) (operand result : Level) : Prop where
  raise : ∀ {ts : List String} {c : Condition}, Derives operand ts c → Derives result ts c
  derives : ∀ {us vs : List String} {l r : Condition}, Derives result us l → Derives operand vs r →
    Derives result (us ++ join.connective.keyword :: vs) (join.make l r)

theorem joins_and : Join.and.Joins .negation .conjunction := ⟨.conjunct, .and⟩

theorem joins_or : Join.or.Joins .conjunction .disjunction := ⟨.disjunct, .or⟩

theorem spelled_of_applyJoin {join : Join} {operand result : Level} (hjoin : join.Joins operand result)
    {done ps qs : List Piece} {us vs : List String} (h : applyJoin join done ps = .ok qs)
    (hdone : Spelled (SpellsPiece result) done.reverse us) (hps : Spelled (SpellsPiece operand) ps vs) :
    Spelled (SpellsPiece result) qs (us ++ vs) := by
  fun_induction applyJoin join done ps generalizing us vs with
  | case1 done =>
    cases h
    cases hps
    rwa [List.append_nil]
  | case2 done c rest ih =>
    obtain ⟨ts, vs, rfl, hcondition, hrest⟩ := hps.of_cons
    cases hcondition with
    | condition hc =>
      rw [← List.append_assoc]
      refine ih h ?_ hrest
      rw [List.reverse_cons]
      exact hdone.append (.singleton (.condition (hjoin.raise hc)))
  | case3 done k rest _ ih =>
    obtain ⟨ts, vs, rfl, hconnective, hrest⟩ := hps.of_cons
    cases hconnective
    rw [← List.append_assoc]
    refine ih h ?_ hrest
    rw [List.reverse_cons]
    exact hdone.append (.singleton (.connective k))
  | case4 k hk left done right rest ih =>
    -- the pieces before and after the connective become one
    have hk : k = join.connective := not_not.1 hk
    obtain ⟨_, _, rfl, hconnective, htail⟩ := hps.of_cons
    obtain ⟨ws, vs, rfl, hright, hrest⟩ := htail.of_cons
    rw [List.reverse_cons] at hdone
    obtain ⟨ts, ls, rfl, hdone, hleft⟩ := hdone.of_append
    cases hconnective
    cases hright with
    | condition hr =>
      cases hleft.of_singleton with
      | condition hl =>
        have hjoined : Spelled (SpellsPiece result) (Piece.condition (join.make left right) :: done).reverse
            (ts ++ (ls ++ join.connective.keyword :: ws)) := by
          rw [List.reverse_cons]
          exact hdone.append (.singleton (.condition (hjoin.derives hl hr)))
        have := ih h hjoined hrest
        rw [hk]
        simpa [List.append_assoc] using this
  | case5 => cases h
  | case6 => cases h

theorem derives_of_ofPieces {ps : List Piece} {c : Condition} {ts : List String} (h : ofPieces ps = .ok c)
    (hps : Spelled (SpellsPiece .atom) ps ts) : Derives .disjunction ts c := by
  unfold ofPieces at h
  obtain ⟨negations, hnot, h⟩ := bind_eq_ok_iff.1 h
  obtain ⟨conjunctions, hand, h⟩ := bind_eq_ok_iff.1 h
  obtain ⟨disjunctions, hor, h⟩ := bind_eq_ok_iff.1 h
  have hps := spelled_of_applyNot hnot hps
  have hps := spelled_of_applyJoin joins_and hand .nil hps
  have hps := spelled_of_applyJoin joins_or hor .nil hps
  split at h
  · cases h
    cases hps.of_singleton with
    | condition hc => exact hc
  · cases h
  · cases h

/-! ### Brackets -/

theorem eq_append_of_splitClosing {depth : Nat} {ns inner after : List Node}
    (h : splitClosing depth ns = some (inner, after)) : ns = inner ++ .closing :: after := by
  induction ns generalizing depth inner after with
  | nil => cases h
  | cons node rest ih =>
    have step : ∀ {d : Nat}, (splitClosing d rest).map (fun split => (node :: split.1, split.2)) = some (inner, after) →
        node :: rest = inner ++ .closing :: after := by
      intro d hd
      obtain ⟨⟨i, a⟩, hs, he⟩ := Option.map_eq_some_iff.1 hd
      cases he
      rw [ih hs, List.cons_append]
    cases node with
    | opening => exact step h
    | closing =>
      cases depth with
      | zero => cases h; rfl
      | succ depth => exact step h
    | piece p => exact step h

theorem spelled_of_pieces {ns : List Node} {ps : List Piece} {ts : List String} (h : pieces ns = .ok ps)
    (hns : Spelled SpellsNode ns ts) : Spelled (SpellsPiece .atom) ps ts := by
  fun_induction pieces ns generalizing ps ts with
  | case1 =>
    cases h
    cases hns
    exact .nil
  | case2 p rest ih =>
    obtain ⟨qs, hqs, h⟩ := bind_eq_ok_iff.1 h
    cases h
    obtain ⟨us, vs, rfl, hp, hrest⟩ := hns.of_cons
    refine .cons ?_ (ih hqs hrest)
    cases hp with
    | connective k => exact .connective k
    | leaf hc => exact .condition (.leaf hc)
  | case3 => cases h
  | case4 => cases h
  | case5 => cases h
  | case6 rest inner after hsplit =>
    rename_i ihinner ihafter
    obtain ⟨qs, hqs, h⟩ := bind_eq_ok_iff.1 h
    obtain ⟨group, hgroup, h⟩ := bind_eq_ok_iff.1 h
    obtain ⟨more, hmore, h⟩ := bind_eq_ok_iff.1 h
    cases h
    -- the tokens between the brackets are a condition, which stands for all of them
    rw [eq_append_of_splitClosing hsplit] at hns
    obtain ⟨_, _, rfl, hopening, htail⟩ := hns.of_cons
    obtain ⟨us, _, rfl, hinner, htail⟩ := htail.of_append
    obtain ⟨_, vs, rfl, hclosing, hafter⟩ := htail.of_cons
    cases hopening
    cases hclosing
    have hgroup := derives_of_ofPieces hgroup (ihinner hqs hinner)
    have := Spelled.cons (SpellsPiece.condition (.brackets hgroup)) (ihafter hmore hafter)
    simpa [List.append_assoc] using this

/-- Whatever is read derives from the grammar. -/
theorem sentence_of_parse {tokens : List String} {c : Condition} (h : parse tokens = .ok c) : Sentence tokens c := by
  unfold parse at h
  split at h
  · rename_i hempty
    cases h
    rw [List.isEmpty_iff.1 hempty]
    exact .empty
  · obtain ⟨ns, hns, h⟩ := bind_eq_ok_iff.1 h
    obtain ⟨ps, hps, h⟩ := bind_eq_ok_iff.1 h
    exact .written (derives_of_ofPieces h (spelled_of_pieces hps (spelled_of_nodes hns)))

end Condition

end DiceTally
