import DiceTally.Proofs.Condition.Passes

/-!
# Every condition of the grammar is read

The passes over a condition are compatible with concatenation: what a pass makes of a list does not depend on what
comes after it.  So the passes can be followed along a derivation, each level of the grammar being finished by its
own pass (`Derives.read`).

The main statement is `parse_eq_ok_iff_sentence`: reading accepts exactly the grammar and builds its trees.
-/

namespace DiceTally

namespace Condition

/-! ### Gathering nodes -/

theorem nodes_append_marker {m : String} {node : Node} (hm : marker? m = some node)
    (pending ts us : List String) :
    nodes pending (ts ++ m :: us) = (do
      let before ← nodes pending ts
      let after ← nodes [] us
      return before ++ node :: after) := by
  induction ts generalizing pending with
  | nil => simp only [List.nil_append, nodes, hm]
  | cons t ts ih =>
    rw [List.cons_append, nodes, nodes]
    cases ht : marker? t with
    | none => exact ih _
    | some other =>
      simp only [ih]
      cases run pending with
      | error e => rfl
      | ok before =>
        cases nodes [] ts with
        | error e => rfl
        | ok middle =>
          cases nodes [] us with
          | error e => rfl
          | ok after => simp [bind, Except.bind, pure, Except.pure]

theorem nodes_of_no_marker {ts : List String} (h : ∀ t ∈ ts, marker? t = none) (pending : List String) :
    nodes pending ts = run (pending ++ ts) := by
  induction ts generalizing pending with
  | nil => rw [nodes, List.append_nil]
  | cons t ts ih =>
    rw [nodes, h t (List.mem_cons_self ..)]
    rw [ih (fun u hu => h u (List.mem_cons_of_mem _ hu)), List.append_assoc]
    rfl

theorem marker?_of_writes {t : String} {v : Value} (h : Writes t v) : marker? t = none := by
  have hk := h.not_mem_keywords
  cases hm : marker? t with
  | none => rfl
  | some node =>
    exfalso
    unfold marker? at hm
    split at hm
    all_goals first
      | exact hk (by decide)
      | cases hm

/-- A comparison has no token that is a node by itself. -/
theorem Leaf.marker? {ts : List String} {c : Condition} (h : Leaf ts c) : ∀ t ∈ ts, marker? t = none := by
  intro t ht
  rcases h.mem ht with rfl | ⟨comparison, rfl⟩ | ⟨v, hv⟩
  · decide
  · cases comparison <;> decide
  · exact marker?_of_writes hv

/-! ### Brackets -/

/-- Nodes whose brackets match do not close a bracket that was opened before them. -/
theorem splitClosing_append {ns : List Node} {ps : List Piece} (h : pieces ns = .ok ps) (depth : Nat)
    (rest : List Node) :
    splitClosing depth (ns ++ rest) = (splitClosing depth rest).map fun (inner, after) => (ns ++ inner, after) := by
  fun_induction pieces ns generalizing ps depth rest with
  | case1 =>
    rw [List.nil_append]
    cases splitClosing depth rest <;> rfl
  | case2 p more ih =>
    obtain ⟨qs, hqs, -⟩ := bind_eq_ok_iff.1 h
    rw [List.cons_append, splitClosing, ih hqs]
    cases splitClosing depth rest <;> rfl
  | case3 => cases h
  | case4 => cases h
  | case5 => cases h
  | case6 more inner after hsplit =>
    rename_i ihinner ihafter
    obtain ⟨qs, hqs, h⟩ := bind_eq_ok_iff.1 h
    obtain ⟨group, -, h⟩ := bind_eq_ok_iff.1 h
    obtain ⟨others, hothers, -⟩ := bind_eq_ok_iff.1 h
    rw [eq_append_of_splitClosing hsplit, List.cons_append, splitClosing, List.append_assoc, ihinner hqs,
      List.cons_append, splitClosing, ihafter hothers]
    cases splitClosing depth rest with
    | none => rfl
    | some r => simp

theorem ne_nil_of_ofPieces {ps : List Piece} {c : Condition} (h : ofPieces ps = .ok c) : ps ≠ [] := by
  rintro rfl
  cases h

theorem ne_nil_of_pieces {ns : List Node} {ps : List Piece} (h : pieces ns = .ok ps) (hps : ps ≠ []) : ns ≠ [] := by
  rintro rfl
  rw [pieces] at h
  cases h
  exact hps rfl

theorem pieces_nil : pieces [] = .ok [] := by
  rw [pieces]

/-- A pair of brackets becomes the condition between them. -/
theorem pieces_brackets {ns : List Node} {ps : List Piece} {c : Condition} (hns : pieces ns = .ok ps)
    (hps : ofPieces ps = .ok c) (rest : List Node) :
    pieces (.opening :: (ns ++ .closing :: rest)) = (pieces rest).map (.condition c :: ·) := by
  have hsplit : splitClosing 0 (ns ++ .closing :: rest) = some (ns, rest) := by
    rw [splitClosing_append hns, splitClosing]
    simp
  have hne : ns.isEmpty = false := by
    simpa using ne_nil_of_pieces hns (ne_nil_of_ofPieces hps)
  rw [pieces]
  split
  · simp_all
  · rename_i inner after h
    rw [hsplit] at h
    cases h
    simp only [hne, hns]
    cases hrest : pieces rest with
    | error e => simp [hps, bind, Except.bind, Except.map]
    | ok qs => simp [hps, bind, Except.bind, Except.map, pure, Except.pure]

/-- What nodes become does not depend on the nodes after them. -/
theorem pieces_append {ns : List Node} {ps : List Piece} (h : pieces ns = .ok ps) (rest : List Node) :
    pieces (ns ++ rest) = (pieces rest).map (ps ++ ·) := by
  fun_induction pieces ns generalizing ps with
  | case1 =>
    cases h
    cases hrest : pieces rest <;> simp [hrest, Except.map]
  | case2 p more ih =>
    obtain ⟨qs, hqs, h⟩ := bind_eq_ok_iff.1 h
    cases h
    rw [List.cons_append, pieces, ih hqs]
    cases pieces rest <;> rfl
  | case3 => cases h
  | case4 => cases h
  | case5 => cases h
  | case6 more inner after hsplit =>
    rename_i ihinner ihafter
    obtain ⟨qs, hqs, h⟩ := bind_eq_ok_iff.1 h
    obtain ⟨group, hgroup, h⟩ := bind_eq_ok_iff.1 h
    obtain ⟨others, hothers, h⟩ := bind_eq_ok_iff.1 h
    cases h
    rw [eq_append_of_splitClosing hsplit, List.cons_append, List.append_assoc, List.cons_append,
      pieces_brackets hqs hgroup, ihafter hothers]
    cases pieces rest <;> rfl

/-! ### Connectives -/

theorem applyNot_cons {piece : Piece} (h : piece ≠ .connective .not) (rest : List Piece) :
    applyNot (piece :: rest) = (applyNot rest).map (piece :: ·) := by
  rw [applyNot]
  · cases applyNot rest <;> rfl
  · exact fun _ _ hp _ => h hp
  · exact fun _ hp _ => h hp
  · exact h

theorem applyNot_append {ps qs : List Piece} (h : applyNot ps = .ok qs) (rest : List Piece) :
    applyNot (ps ++ rest) = (applyNot rest).map (qs ++ ·) := by
  fun_induction applyNot ps generalizing qs with
  | case1 =>
    cases h
    cases hrest : applyNot rest <;> simp [hrest, Except.map]
  | case2 c more ih =>
    obtain ⟨rs, hrs, h⟩ := bind_eq_ok_iff.1 h
    cases h
    simp only [List.cons_append, applyNot, ih hrs]
    cases applyNot rest <;> rfl
  | case3 => cases h
  | case4 => cases h
  | case5 piece more _ _ hpiece ih =>
    obtain ⟨rs, hrs, h⟩ := bind_eq_ok_iff.1 h
    cases h
    rw [List.cons_append, applyNot_cons hpiece, ih hrs]
    cases applyNot rest <;> rfl

theorem applyJoin_condition (join : Join) (done : List Piece) (c : Condition) (rest : List Piece) :
    applyJoin join done (.condition c :: rest) = applyJoin join (.condition c :: done) rest := by
  rw [applyJoin]

theorem applyJoin_pass {join : Join} {k : Connective} (hk : k ≠ join.connective) (done rest : List Piece) :
    applyJoin join done (.connective k :: rest) = applyJoin join (.connective k :: done) rest := by
  rw [applyJoin.eq_def]
  exact if_pos hk

theorem applyJoin_join (join : Join) (left right : Condition) (done rest : List Piece) :
    applyJoin join (.condition left :: done) (.connective join.connective :: .condition right :: rest) =
      applyJoin join (.condition (join.make left right) :: done) rest := by
  rw [applyJoin.eq_def]
  exact if_neg (not_not.2 rfl)

/-- A binary connective goes on behind the pieces that the ones before it became. -/
theorem applyJoin_append {join : Join} {done ps qs : List Piece} (h : applyJoin join done ps = .ok qs)
    (rest : List Piece) : applyJoin join done (ps ++ rest) = applyJoin join qs.reverse rest := by
  fun_induction applyJoin join done ps with
  | case1 done =>
    cases h
    rw [List.reverse_reverse, List.nil_append]
  | case2 done c more ih => rw [List.cons_append, applyJoin_condition, ih h]
  | case3 done k more hk ih => rw [List.cons_append, applyJoin_pass hk, ih h]
  | case4 k hk left done right more ih =>
    rw [not_not.1 hk, List.cons_append, List.cons_append, applyJoin_join, ih h]
  | case5 => cases h
  | case6 => cases h

/-- The pieces below those that a pass works on stay as they are. -/
theorem applyJoin_below {join : Join} {done ps qs : List Piece} (h : applyJoin join done ps = .ok qs)
    (below : List Piece) : applyJoin join (done ++ below) ps = .ok (below.reverse ++ qs) := by
  fun_induction applyJoin join done ps with
  | case1 done =>
    cases h
    rw [applyJoin, List.reverse_append]
  | case2 done c more ih => rw [applyJoin_condition, ← List.cons_append, ih h]
  | case3 done k more hk ih => rw [applyJoin_pass hk, ← List.cons_append, ih h]
  | case4 k hk left done right more ih =>
    rw [not_not.1 hk, List.cons_append, applyJoin_join, ← List.cons_append, ih h]
  | case5 => cases h
  | case6 => cases h

/-- Another connective stays where it is. -/
theorem applyJoin_other {join : Join} {k : Connective} (hk : k ≠ join.connective) {ps qs : List Piece}
    (h : applyJoin join [] ps = .ok qs) (done : List Piece) :
    applyJoin join done (.connective k :: ps) = .ok (done.reverse ++ .connective k :: qs) := by
  have := applyJoin_below h (.connective k :: done)
  rw [List.nil_append, List.reverse_cons, List.append_assoc] at this
  rw [applyJoin_pass hk, this]
  rfl

/-! ### Along a derivation -/

/-- The pieces of a condition of each level. -/
def ReadAs : Level → List Piece → Condition → Prop
  | .atom, ps, c => ps = [.condition c]
  | .negation, ps, c => applyNot ps = .ok [.condition c]
  | .conjunction, ps, c => ∃ qs, applyNot ps = .ok qs ∧ applyJoin .and [] qs = .ok [.condition c]
  | .disjunction, ps, c => ∃ qs rs, applyNot ps = .ok qs ∧ applyJoin .and [] qs = .ok rs ∧
      applyJoin .or [] rs = .ok [.condition c]

theorem ofPieces_of_readAs {ps : List Piece} {c : Condition} (h : ReadAs .disjunction ps c) :
    ofPieces ps = .ok c := by
  obtain ⟨qs, rs, hnot, hand, hor⟩ := h
  unfold ofPieces
  simp only [hnot, hand, hor, bind, Except.bind]

/-- Nodes and pieces of the tokens around a connective. -/
theorem pieces_around {k : Connective} {us vs : List String} {ns ms : List Node} {ps qs : List Piece}
    (hns : nodes [] us = .ok ns) (hps : pieces ns = .ok ps) (hms : nodes [] vs = .ok ms) (hqs : pieces ms = .ok qs) :
    nodes [] (us ++ k.keyword :: vs) = .ok (ns ++ .piece (.connective k) :: ms) ∧
      pieces (ns ++ .piece (.connective k) :: ms) = .ok (ps ++ .connective k :: qs) := by
  have hk : marker? k.keyword = some (.piece (.connective k)) := by cases k <;> rfl
  constructor
  · rw [nodes_append_marker hk, hns, hms]
    rfl
  · rw [pieces_append hps, pieces, hqs]
    rfl

theorem Derives.read {level : Level} {ts : List String} {c : Condition} (h : Derives level ts c) :
    ∃ ns ps, nodes [] ts = .ok ns ∧ pieces ns = .ok ps ∧ ReadAs level ps c := by
  induction h with
  | @leaf ts c h =>
    have hne : ts ≠ [] := by
      obtain ⟨t, us, rfl, -⟩ := h.isComparing_head
      exact List.cons_ne_nil _ _
    refine ⟨[.piece (.condition c)], [.condition c], ?_, ?_, rfl⟩
    · rw [nodes_of_no_marker h.marker?, List.nil_append, run, if_neg (by simpa using hne), leaf_of_Leaf h]
      rfl
    · rw [pieces, pieces]
      rfl
  -- inside brackets all passes are made before the nodes outside are looked at
  | @brackets ts c _ ih =>
    obtain ⟨ns, ps, hns, hps, hread⟩ := ih
    refine ⟨.opening :: (ns ++ [.closing]), [.condition c], ?_, ?_, rfl⟩
    · have hopening := nodes_append_marker (m := "[") rfl [] [] (ts ++ ["]"])
      have hclosing := nodes_append_marker (m := "]") rfl [] ts []
      rw [List.nil_append] at hopening
      rw [List.cons_append, hopening, hclosing, hns]
      rfl
    · rw [pieces_brackets hps (ofPieces_of_readAs hread), pieces]
      rfl
  | plain _ ih =>
    obtain ⟨ns, ps, hns, hps, rfl⟩ := ih
    exact ⟨ns, _, hns, hps, rfl⟩
  | @not ts c _ ih =>
    obtain ⟨ns, ps, hns, hps, rfl⟩ := ih
    have hnil : nodes [] [] = .ok [] := rfl
    obtain ⟨hns, hps⟩ := pieces_around (k := .not) hnil pieces_nil hns hps
    exact ⟨_, _, hns, hps, rfl⟩
  | conjunct _ ih =>
    obtain ⟨ns, ps, hns, hps, hread⟩ := ih
    exact ⟨ns, ps, hns, hps, _, hread, rfl⟩
  -- the left side has become one condition before the pass comes to the connective
  | @and us vs l r _ _ ihl ihr =>
    obtain ⟨ns, ps, hns, hps, qs, hnot, hand⟩ := ihl
    obtain ⟨ms, rs, hms, hrs, hnot'⟩ := ihr
    obtain ⟨hns, hps⟩ := pieces_around (k := .and) hns hps hms hrs
    refine ⟨_, _, hns, hps, qs ++ [.connective .and, .condition r], ?_, ?_⟩
    · rw [applyNot_append hnot, applyNot_cons (by simp), show applyNot rs = .ok [.condition r] from hnot']
      rfl
    · rw [applyJoin_append hand]
      exact applyJoin_join .and l r [] []
  | disjunct _ ih =>
    obtain ⟨ns, ps, hns, hps, qs, hnot, hand⟩ := ih
    exact ⟨ns, ps, hns, hps, qs, _, hnot, hand, rfl⟩
  | @or us vs l r _ _ ihl ihr =>
    obtain ⟨ns, ps, hns, hps, qs, js, hnot, hand, hor⟩ := ihl
    obtain ⟨ms, rs, hms, hrs, qs', hnot', hand'⟩ := ihr
    obtain ⟨hns, hps⟩ := pieces_around (k := .or) hns hps hms hrs
    refine ⟨_, _, hns, hps, qs ++ .connective .or :: qs', js ++ [.connective .or, .condition r], ?_, ?_, ?_⟩
    · rw [applyNot_append hnot, applyNot_cons (by simp), hnot']
      rfl
    -- the pass for `and` leaves `or` where it is and joins on both sides of it
    · rw [applyJoin_append hand, applyJoin_other (by decide) hand', List.reverse_reverse]
    · rw [applyJoin_append hor]
      exact applyJoin_join .or l r [] []

theorem parse_of_sentence {tokens : List String} {c : Condition} (h : Sentence tokens c) : parse tokens = .ok c := by
  cases h with
  | empty => rfl
  | written h =>
    obtain ⟨ns, ps, hns, hps, hread⟩ := h.read
    have hc := ofPieces_of_readAs hread
    have hne : tokens ≠ [] := by
      rintro rfl
      cases hns
      exact ne_nil_of_pieces hps (ne_nil_of_ofPieces hc) rfl
    unfold parse
    rw [if_neg (by simpa using hne), hns]
    show (do let ps ← pieces ns; ofPieces ps) = _
    rw [hps]
    exact hc

/-- A condition is accepted exactly if the grammar derives it, and what is built is the tree of its derivation. -/
theorem parse_eq_ok_iff_sentence (tokens : List String) (c : Condition) :
    parse tokens = .ok c ↔ Sentence tokens c :=
  ⟨sentence_of_parse, parse_of_sentence⟩

end Condition

end DiceTally
