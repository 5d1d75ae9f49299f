import CSharpTidy.Conditional.Condition
import CSharpTidy.Proofs.RoundTrip

/- The grammar of conditions and what they mean. A condition of a level is a chain of conditions of
   the next tighter level, joined by the operators of its own; the tightest are negations, constants,
   symbols and conditions in parentheses. Reading accepts exactly the words that have a derivation,
   no words have two, and the value is that of the derivation. -/
namespace CSharpTidy.Condition

def Level.joints : Level → List Word
  | .or => [.bars]
  | .and => [.ampersands]
  | .equality => [.equals, .bangEquals]
  | .unary => []

def Word.join : Word → Bool → Bool → Bool
  | .bars, a, b => a || b
  | .ampersands, a, b => a && b
  | .equals, a, b => a == b
  | _, a, b => a != b

mutual

inductive Derivation : Level → Type where
  | constant (value : Bool) : Derivation .unary
  | symbol (name : String) (valid : isSymbol name.toList) : Derivation .unary
  | not (operand : Derivation .unary) : Derivation .unary
  | group (inner : Derivation .or) : Derivation .unary
  | chain {level : Level} (loose : level ≠ .unary) (first : Derivation level.tighter)
      (links : Links level) : Derivation level

inductive Links : Level → Type where
  | done {level : Level} : Links level
  | more {level : Level} (joint : Word) (joins : joint ∈ level.joints)
      (part : Derivation level.tighter) (links : Links level) : Links level

end

mutual

def Derivation.words {level : Level} : Derivation level → List Word
  | .constant value => [.name (if value then "true" else "false")]
  | .symbol name _ => [.name name]
  | .not operand => .bang :: operand.words
  | .group inner => .openParen :: (inner.words ++ [.closeParen])
  | .chain _ first links => first.words ++ links.words

def Links.words {level : Level} : Links level → List Word
  | .done => []
  | .more joint _ part links => joint :: (part.words ++ links.words)

end

mutual

def Derivation.value (symbols : List String) {level : Level} : Derivation level → Bool
  | .constant value => value
  | .symbol name _ => decide (name ∈ symbols)
  | .not operand => !operand.value symbols
  | .group inner => inner.value symbols
  | .chain _ first links => links.value symbols (first.value symbols)

/-- The value of a chain whose parts so far have the value `left`: joints group to the left. -/
def Links.value (symbols : List String) {level : Level} (left : Bool) : Links level → Bool
  | .done => left
  | .more joint _ part links => links.value symbols (joint.join left (part.value symbols))

end

/-- Reading without the bound on what is left. -/
def readAt (level : Level) (ws : List Word) : Except ConditionError (Condition × List Word) :=
  (parseAt level ws).map Subtype.val

def readChain (level : Level) (left : Condition) (ws : List Word) :
    Except ConditionError (Condition × List Word) :=
  (parseChain level left ws).map Subtype.val

variable {level : Level} {op : Condition → Condition → Condition} {ws rest : List Word}
  {c : Condition} {w : Word} {expr s : List Char} {name : String} {ε α β : Type}

theorem readAt_length (h : readAt level ws = .ok (c, rest)) : rest.length < ws.length := by
  unfold readAt at h
  cases read : parseAt level ws with
  | error e => simp [read, Except.map] at h
  | ok r =>
    obtain ⟨⟨c', rest'⟩, shorter⟩ := r
    simp only [read, Except.map, Except.ok.injEq, Prod.mk.injEq] at h
    obtain ⟨rfl, rfl⟩ := h
    exact shorter

theorem readAt_nil : readAt .unary [] = .error .incomplete := by
  rw [readAt, parseAt.eq_def]
  rfl

theorem readAt_bang (rest : List Word) :
    readAt .unary (.bang :: rest) = (readAt .unary rest).map fun r => (.not r.1, r.2) := by
  rw [readAt, readAt, parseAt.eq_def]
  simp only [dif_pos]
  cases parseAt .unary rest <;> rfl

def closeGroup : Condition × List Word → Except ConditionError (Condition × List Word)
  | (c, .closeParen :: rest) => .ok (c, rest)
  | _ => .error .unclosed

theorem readAt_openParen (rest : List Word) :
    readAt .unary (.openParen :: rest) = (readAt .or rest).bind closeGroup := by
  rw [readAt, readAt, parseAt.eq_def]
  simp only [dif_pos]
  cases parseAt .or rest with
  | error e => rfl
  | ok r =>
    obtain ⟨⟨c, rest'⟩, shorter⟩ := r
    rcases rest' with - | ⟨w, rest'⟩
    · rfl
    · cases w <;> rfl

theorem readAt_primary (bang : w ≠ .bang) (paren : w ≠ .openParen) (rest : List Word) :
    readAt .unary (w :: rest) = (primary w).map fun c => (c, rest) := by
  rw [readAt, parseAt.eq_def]
  simp only [dif_pos]
  cases primary w <;> rfl

theorem readAt_chain (loose : level ≠ .unary) (ws : List Word) :
    readAt level ws = (readAt level.tighter ws).bind fun r => readChain level r.1 r.2 := by
  rw [readAt, readAt, parseAt.eq_def]
  simp only [dif_neg loose]
  cases parseAt level.tighter ws with
  | error e => rfl
  | ok r =>
    obtain ⟨⟨left, rest⟩, shorter⟩ := r
    simp only [Except.map, Except.bind, readChain]
    cases parseChain level left rest <;> rfl

theorem readChain_nil (level : Level) (left : Condition) :
    readChain level left [] = .ok (left, []) := by
  rw [readChain, parseChain.eq_def]
  rfl

theorem readChain_stop (h : level.operator? w = none) (left : Condition) (rest : List Word) :
    readChain level left (w :: rest) = .ok (left, w :: rest) := by
  rw [readChain, parseChain.eq_def]
  simp only [h]
  rfl

theorem readChain_link (h : level.operator? w = some op) (left : Condition) (rest : List Word) :
    readChain level left (w :: rest) =
      (readAt level.tighter rest).bind fun r => readChain level (op left r.1) r.2 := by
  rw [readChain, readAt, parseChain.eq_def]
  simp only [h]
  cases parseAt level.tighter rest with
  | error e => rfl
  | ok r =>
    obtain ⟨⟨right, rest'⟩, shorter⟩ := r
    simp only [Except.map, Except.bind, readChain]
    cases parseChain level (op left right) rest' <;> rfl

theorem Level.rank_le (level : Level) : level.rank ≤ 3 := by
  cases level <;> decide

theorem Level.operator?_eq_none_iff : level.operator? w = none ↔ w ∉ level.joints := by
  cases level <;> cases w <;> simp [operator?, joints]

theorem Level.mem_joints_of_operator? (h : level.operator? w = some op) : w ∈ level.joints := by
  cases level <;> cases w <;> simp_all [operator?, joints]

theorem Level.eval_operator? (h : level.operator? w = some op) (symbols : List String)
    (a b : Condition) : (op a b).eval symbols = w.join (a.eval symbols) (b.eval symbols) := by
  cases level <;> cases w <;> simp only [operator?, reduceCtorEq, Option.some.injEq] at h <;>
    subst h <;> rfl

/-- The words of a text of a condition: a name is a constant or a symbol. -/
def Word.Lexed : Word → Prop
  | .name text => text = "true" ∨ text = "false" ∨ isSymbol text.toList
  | _ => True

theorem nextWord?_name {rest : List Char} {text : String}
    (h : nextWord? s = some (.name text, rest)) : ∃ (c : Char) (t : List Char), isSymbolStart c ∧
      text = String.ofList (c :: t.takeWhile isSymbolPart) := by
  unfold nextWord? at h
  split at h
  case h_8 c t _ _ _ _ _ _ _ =>
    split at h
    · rename_i start
      simp only [Option.some.injEq, Prod.mk.injEq, Word.name.injEq] at h
      exact ⟨c, t, start, h.1.symm⟩
    · cases h
  all_goals simp at h

theorem nextWord?_lexed {rest : List Char} (h : nextWord? s = some (w, rest)) : w.Lexed := by
  cases w with
  | name text =>
    obtain ⟨c, t, start, rfl⟩ := nextWord?_name h
    by_cases isTrue : c :: t.takeWhile isSymbolPart = ['t', 'r', 'u', 'e']
    · rw [isTrue]
      exact .inl rfl
    · by_cases isFalse : c :: t.takeWhile isSymbolPart = ['f', 'a', 'l', 's', 'e']
      · rw [isFalse]
        exact .inr (.inl rfl)
      · refine .inr (.inr ?_)
        simp only [String.toList_ofList, isSymbol, start, List.all_takeWhile, Bool.true_and,
          Bool.and_eq_true, bne_iff_ne]
        exact ⟨isTrue, isFalse⟩
  | _ => trivial

theorem words_lexed (h : words s = some ws) : ∀ w ∈ ws, w.Lexed := by
  fun_induction words s generalizing ws with
  | case1 s trimmed =>
    obtain rfl := Option.some.inj h
    simp
  | case2 => cases h
  | case3 s c t trimmed w rest next ih =>
    obtain ⟨others, read, rfl⟩ := Option.map_eq_some_iff.mp h
    rw [List.forall_mem_cons]
    exact ⟨nextWord?_lexed next, ih read⟩

/-- No chain of the level or of a tighter one goes on at these words. -/
def Level.Ends (level : Level) (ws : List Word) : Prop :=
  ∀ w ∈ ws.head?, ∀ l : Level, l.rank ≤ level.rank → w ∉ l.joints

theorem Level.Ends.tighter (h : level.Ends ws) : level.tighter.Ends ws :=
  fun w first l below => h w first l (Nat.le_trans below level.tighter_rank_le)

theorem Level.ends_nil (level : Level) : level.Ends [] := by
  simp [Ends]

theorem Level.ends_closeParen (level : Level) (rest : List Word) :
    level.Ends (.closeParen :: rest) := by
  intro w first l _
  obtain rfl := Option.some.inj first
  cases l <;> simp [joints]

theorem Level.ends_joint {joint : Word} (h : joint ∈ level.joints) (rest : List Word) :
    level.tighter.Ends (joint :: rest) := by
  intro w first l below other
  obtain rfl := Option.some.inj first
  cases level <;> cases l <;> simp_all [joints, rank, tighter]

theorem Links.ends (links : Links level) (h : level.Ends rest) :
    level.tighter.Ends (links.words ++ rest) := by
  cases links with
  | done => exact h.tighter
  | more joint joins part links => exact Level.ends_joint joins _

theorem readChain_ends (h : level.Ends rest) (left : Condition) :
    readChain level left rest = .ok (left, rest) := by
  cases rest with
  | nil => exact readChain_nil level left
  | cons w rest =>
    exact readChain_stop (Level.operator?_eq_none_iff.mpr (h w rfl level (Nat.le_refl _))) left rest

theorem primary_symbol (h : isSymbol name.toList) : primary (.name name) = .ok (.defined name) := by
  unfold primary
  split <;> simp_all [isSymbol]

mutual

theorem Derivation.read {level : Level} : (d : Derivation level) → {rest : List Word} →
    level.Ends rest → ∃ c, readAt level (d.words ++ rest) = .ok (c, rest) ∧
      ∀ symbols, c.eval symbols = d.value symbols
  | .constant value, rest, _ => by
    refine ⟨.constant value, ?_, fun _ => rfl⟩
    cases value <;> exact readAt_primary (by simp) (by simp) rest
  | .symbol name valid, rest, _ => by
    refine ⟨.defined name, ?_, fun symbols => ?_⟩
    · rw [Derivation.words, List.singleton_append, readAt_primary (by simp) (by simp),
        primary_symbol valid]
      rfl
    · simp [eval, Derivation.value]
  | .not operand, rest, ends => by
    obtain ⟨c, read, same⟩ := operand.read ends
    refine ⟨.not c, ?_, fun symbols => ?_⟩
    · rw [Derivation.words, List.cons_append, readAt_bang, read]
      rfl
    · rw [eval, Derivation.value, same]
  | .group inner, rest, _ => by
    obtain ⟨c, read, same⟩ := inner.read (Level.ends_closeParen .or rest)
    refine ⟨c, ?_, fun symbols => ?_⟩
    · rw [Derivation.words, List.cons_append, List.append_assoc, List.singleton_append,
        readAt_openParen, read]
      rfl
    · rw [Derivation.value, same]
  | .chain loose first links, rest, ends => by
    obtain ⟨left, readFirst, sameFirst⟩ := first.read (links.ends ends)
    obtain ⟨c, readLinks, sameLinks⟩ := links.read left ends
    refine ⟨c, ?_, fun symbols => ?_⟩
    · rw [Derivation.words, List.append_assoc, readAt_chain loose, readFirst]
      exact readLinks
    · rw [Derivation.value, sameLinks, sameFirst]

theorem Links.read {level : Level} : (links : Links level) → (left : Condition) →
    {rest : List Word} → level.Ends rest →
    ∃ c, readChain level left (links.words ++ rest) = .ok (c, rest) ∧
      ∀ symbols, c.eval symbols = links.value symbols (left.eval symbols)
  | .done, left, rest, ends => ⟨left, readChain_ends ends left, fun _ => rfl⟩
  | .more joint joins part links, left, rest, ends => by
    obtain ⟨right, readPart, samePart⟩ := part.read (links.ends ends)
    obtain ⟨op, stands⟩ : ∃ op, level.operator? joint = some op :=
      Option.ne_none_iff_exists'.mp fun none => Level.operator?_eq_none_iff.mp none joins
    obtain ⟨c, readLinks, sameLinks⟩ := links.read (op left right) ends
    refine ⟨c, ?_, fun symbols => ?_⟩
    · rw [Links.words, List.cons_append, List.append_assoc, readChain_link stands, readPart]
      exact readLinks
    · rw [Links.value, sameLinks, Level.eval_operator? stands, samePart]

end

theorem bind_eq_ok {x : Except ε α} {f : α → Except ε β} {b : β} (h : x.bind f = .ok b) :
    ∃ a, x = .ok a ∧ f a = .ok b := by
  cases x with
  | error e => cases h
  | ok a => exact ⟨a, rfl, h⟩

theorem map_eq_ok {x : Except ε α} {f : α → β} {b : β} (h : x.map f = .ok b) :
    ∃ a, x = .ok a ∧ f a = b := by
  cases x with
  | error e => cases h
  | ok a => exact ⟨a, rfl, Except.ok.inj h⟩

theorem closeGroup_eq_ok {r : Condition × List Word} (h : closeGroup r = .ok (c, rest)) :
    r = (c, .closeParen :: rest) := by
  unfold closeGroup at h
  split at h
  · obtain ⟨rfl, rfl⟩ := Prod.mk.inj (Except.ok.inj h)
    rfl
  · cases h

theorem exists_primary (lexed : w.Lexed) (h : primary w = .ok c) :
    ∃ d : Derivation .unary, d.words = [w] ∧ ∀ symbols, c.eval symbols = d.value symbols := by
  cases w with
  | name text =>
    obtain rfl | rfl | symbol := lexed
    · obtain rfl := Except.ok.inj h
      exact ⟨.constant true, rfl, fun _ => rfl⟩
    · obtain rfl := Except.ok.inj h
      exact ⟨.constant false, rfl, fun _ => rfl⟩
    · rw [primary_symbol symbol] at h
      obtain rfl := Except.ok.inj h
      exact ⟨.symbol text symbol, rfl, fun symbols => by simp [eval, Derivation.value]⟩
  | _ => cases h

def Derivable (level : Level) (ws : List Word) : Prop :=
  ∀ c rest, readAt level ws = .ok (c, rest) →
    ∃ d : Derivation level, ws = d.words ++ rest ∧ ∀ symbols, c.eval symbols = d.value symbols

theorem derivable_unary (lexed : ∀ w ∈ ws, w.Lexed)
    (shorter : ∀ level ws', (∀ w ∈ ws', w.Lexed) → ws'.length < ws.length → Derivable level ws') :
    Derivable .unary ws := by
  intro c rest h
  rcases ws with - | ⟨w, ws⟩
  · rw [readAt_nil] at h
    cases h
  rw [List.forall_mem_cons] at lexed
  by_cases bang : w = .bang
  · subst bang
    rw [readAt_bang] at h
    obtain ⟨⟨operand, rest'⟩, read, same⟩ := map_eq_ok h
    obtain ⟨rfl, rfl⟩ := Prod.mk.inj same
    obtain ⟨d, rfl, value⟩ := shorter .unary ws lexed.2 (Nat.lt_succ_self _) operand rest' read
    refine ⟨.not d, rfl, fun symbols => ?_⟩
    rw [eval, Derivation.value, value]
  by_cases paren : w = .openParen
  · subst paren
    rw [readAt_openParen] at h
    obtain ⟨r, read, closed⟩ := bind_eq_ok h
    obtain rfl := closeGroup_eq_ok closed
    obtain ⟨d, rfl, value⟩ := shorter .or ws lexed.2 (Nat.lt_succ_self _) c _ read
    refine ⟨.group d, ?_, fun symbols => ?_⟩
    · simp [Derivation.words]
    · rw [Derivation.value, value]
  rw [readAt_primary bang paren] at h
  obtain ⟨c', read, same⟩ := map_eq_ok h
  obtain ⟨rfl, rfl⟩ := Prod.mk.inj same
  obtain ⟨d, spelt, value⟩ := exists_primary lexed.1 read
  exact ⟨d, by rw [spelt]; rfl, value⟩

mutual

theorem derivable (level : Level) (ws : List Word) (lexed : ∀ w ∈ ws, w.Lexed) :
    Derivable level ws := by
  by_cases tight : level = .unary
  · have shorter : ∀ level' ws', (∀ w ∈ ws', w.Lexed) → ws'.length < ws.length →
        Derivable level' ws' := by
      intro level' ws' lexed' fewer
      exact derivable level' ws' lexed'
    subst tight
    exact derivable_unary lexed shorter
  · intro c rest h
    rw [readAt_chain tight] at h
    obtain ⟨⟨left, rest'⟩, readFirst, readLinks⟩ := bind_eq_ok h
    have fewer := readAt_length readFirst
    have below := level.tighter_rank tight
    obtain ⟨first, spelt, sameFirst⟩ := derivable level.tighter ws lexed left rest' readFirst
    have lexed' : ∀ w ∈ rest', w.Lexed := by
      intro w mem
      exact lexed w (by rw [spelt]; exact List.mem_append_right _ mem)
    obtain ⟨links, rfl, sameLinks⟩ := exists_links level left rest' lexed' readLinks
    refine ⟨.chain tight first links, ?_, fun symbols => ?_⟩
    · rw [Derivation.words, List.append_assoc, spelt]
    · rw [Derivation.value, sameLinks, sameFirst]
termination_by 4 * ws.length + level.rank
decreasing_by
  · have := level'.rank_le
    omega
  · omega
  · have := level.rank_le
    omega

theorem exists_links (level : Level) (left : Condition) (ws : List Word)
    (lexed : ∀ w ∈ ws, w.Lexed) {c : Condition} {rest : List Word}
    (h : readChain level left ws = .ok (c, rest)) :
    ∃ links : Links level, ws = links.words ++ rest ∧
      ∀ symbols, c.eval symbols = links.value symbols (left.eval symbols) := by
  rcases shape : ws with - | ⟨w, ws'⟩
  · rw [shape, readChain_nil] at h
    obtain ⟨rfl, rfl⟩ := Prod.mk.inj (Except.ok.inj h)
    exact ⟨.done, rfl, fun _ => rfl⟩
  rw [shape] at h
  rw [shape, List.forall_mem_cons] at lexed
  cases stands : level.operator? w with
  | none =>
    rw [readChain_stop stands] at h
    obtain ⟨rfl, rfl⟩ := Prod.mk.inj (Except.ok.inj h)
    exact ⟨.done, rfl, fun _ => rfl⟩
  | some op =>
    rw [readChain_link stands] at h
    obtain ⟨⟨right, rest'⟩, readPart, readLinks⟩ := bind_eq_ok h
    have fewer := readAt_length readPart
    have below := level.tighter_rank_le
    have size : ws.length = ws'.length + 1 := by rw [shape, List.length_cons]
    obtain ⟨part, spelt, samePart⟩ := derivable level.tighter ws' lexed.2 right rest' readPart
    have lexed' : ∀ w ∈ rest', w.Lexed := by
      intro w mem
      exact lexed.2 w (by rw [spelt]; exact List.mem_append_right _ mem)
    obtain ⟨links, rfl, sameLinks⟩ := exists_links level (op left right) rest' lexed' readLinks
    refine ⟨.more w (Level.mem_joints_of_operator? stands) part links, ?_, fun symbols => ?_⟩
    · rw [Links.words, List.cons_append, List.append_assoc, spelt]
    · rw [Links.value, sameLinks, Level.eval_operator? stands, samePart]
termination_by 4 * ws.length + level.rank
decreasing_by
  · omega
  · omega

end

theorem ne_symbol (valid : isSymbol name.toList) (value : Bool) :
    (if value then "true" else "false") ≠ name := by
  rintro rfl
  cases value <;> simp [isSymbol] at valid

mutual

/-- Words have one derivation, and where it ends is settled too. -/
theorem Derivation.eq_of_words {level : Level} : (d d' : Derivation level) →
    {rest rest' : List Word} → level.Ends rest → level.Ends rest' →
    d.words ++ rest = d'.words ++ rest' → d = d' ∧ rest = rest'
  | .constant value, d', rest, rest', _, _, h => by
    cases d' with
    | constant value' => cases value <;> cases value' <;> simp_all [Derivation.words]
    | symbol name valid =>
      simp only [Derivation.words, List.singleton_append, List.cons.injEq, Word.name.injEq] at h
      exact absurd h.1 (ne_symbol valid value)
    | not operand => simp [Derivation.words] at h
    | group inner => simp [Derivation.words] at h
    | chain loose => exact absurd rfl loose
  | .symbol name valid, d', rest, rest', _, _, h => by
    cases d' with
    | constant value =>
      simp only [Derivation.words, List.singleton_append, List.cons.injEq, Word.name.injEq] at h
      exact absurd h.1.symm (ne_symbol valid value)
    | symbol name' valid' => simp_all [Derivation.words]
    | not operand => simp [Derivation.words] at h
    | group inner => simp [Derivation.words] at h
    | chain loose => exact absurd rfl loose
  | .not operand, d', rest, rest', ends, ends', h => by
    cases d' with
    | not operand' =>
      obtain ⟨same, left⟩ := operand.eq_of_words operand' ends ends' (List.cons.inj h).2
      exact ⟨congrArg _ same, left⟩
    | constant | symbol | group => simp [Derivation.words] at h
    | chain loose => exact absurd rfl loose
  | .group inner, d', rest, rest', _, _, h => by
    cases d' with
    | group inner' =>
      simp only [Derivation.words, List.cons_append, List.append_assoc, List.nil_append,
        List.cons.injEq, true_and] at h
      obtain ⟨same, left⟩ := inner.eq_of_words inner' (Level.ends_closeParen .or rest)
        (Level.ends_closeParen .or rest') h
      exact ⟨congrArg _ same, (List.cons.inj left).2⟩
    | constant | symbol | not => simp [Derivation.words] at h
    | chain loose => exact absurd rfl loose
  | .chain loose first links, d', rest, rest', ends, ends', h => by
    cases d' with
    | chain loose' first' links' =>
      simp only [Derivation.words, List.append_assoc] at h
      obtain ⟨sameFirst, behind⟩ := first.eq_of_words first' (links.ends ends) (links'.ends ends') h
      obtain ⟨sameLinks, left⟩ := links.eq_of_words links' ends ends' behind
      exact ⟨by rw [sameFirst, sameLinks], left⟩
    | _ => exact absurd rfl loose

theorem Links.eq_of_words {level : Level} : (links links' : Links level) →
    {rest rest' : List Word} → level.Ends rest → level.Ends rest' →
    links.words ++ rest = links'.words ++ rest' → links = links' ∧ rest = rest'
  | .done, links', rest, rest', ends, _, h => by
    cases links' with
    | done => exact ⟨rfl, h⟩
    | more joint joins =>
      exact absurd joins (ends joint (by rw [show rest = _ from h]; rfl) level (Nat.le_refl _))
  | .more joint joins part links, links', rest, rest', ends, ends', h => by
    cases links' with
    | done =>
      exact absurd joins (ends' joint (by rw [show rest' = _ from h.symm]; rfl) level (Nat.le_refl _))
    | more joint' joins' part' links' =>
      simp only [Links.words, List.cons_append, List.append_assoc, List.cons.injEq] at h
      obtain ⟨rfl, h⟩ := h
      obtain ⟨samePart, behind⟩ := part.eq_of_words part' (links.ends ends) (links'.ends ends') h
      obtain ⟨sameLinks, left⟩ := links.eq_of_words links' ends ends' behind
      exact ⟨by rw [samePart, sameLinks], left⟩

end

theorem ofWords_eq_ok_iff : ofWords ws = .ok c ↔ readAt .or ws = .ok (c, []) := by
  cases ws with
  | nil =>
    refine ⟨nofun, fun h => ?_⟩
    exact absurd (readAt_length h) (by simp)
  | cons w ws =>
    unfold ofWords readAt
    cases read : parseAt .or (w :: ws) with
    | error e => simp [read, Except.map]
    | ok r =>
      obtain ⟨⟨c', rest⟩, shorter⟩ := r
      cases rest <;> simp [read, Except.map]

theorem evaluate_of_words (h : words expr = some ws) (symbols : List String) :
    evaluate symbols expr = (ofWords ws).map (eval symbols) := by
  rw [evaluate, parse, h]

theorem evaluate_derived {d : Derivation .or} (h : words expr = some d.words)
    (symbols : List String) : evaluate symbols expr = .ok (d.value symbols) := by
  obtain ⟨c, read, same⟩ := d.read (Level.ends_nil .or)
  rw [List.append_nil] at read
  rw [evaluate_of_words h, ofWords_eq_ok_iff.mpr read, Except.map, same]

theorem exists_derivation (h : words expr = some ws) {symbols : List String} {v : Bool}
    (evaluated : evaluate symbols expr = .ok v) : ∃ d : Derivation .or, d.words = ws := by
  rw [evaluate_of_words h] at evaluated
  obtain ⟨c, read, -⟩ := map_eq_ok evaluated
  obtain ⟨d, spelt, -⟩ := derivable .or ws (words_lexed h) c [] (ofWords_eq_ok_iff.mp read)
  exact ⟨d, by rw [spelt, List.append_nil]⟩

/-- A condition has a value exactly if its words have a derivation. They have no other then, and
the value is that of the derivation. -/
theorem evaluate_iff_derivation {expr : List Char} {ws : List Word} (h : words expr = some ws)
    (symbols : List String) :
    (∀ v, evaluate symbols expr = .ok v ↔
      ∃ d : Derivation .or, (∀ d' : Derivation .or, d'.words = ws ↔ d' = d) ∧
        d.value symbols = v) ∧
      ((∃ e, evaluate symbols expr = .error e) ↔ ∀ d : Derivation .or, d.words ≠ ws) := by
  have unique : ∀ d d' : Derivation .or, d'.words = d.words ↔ d' = d := by
    intro d d'
    refine ⟨fun same => ?_, fun same => by rw [same]⟩
    exact (d'.eq_of_words d (Level.ends_nil .or) (Level.ends_nil .or)
      (congrArg (· ++ []) same)).1
  refine ⟨fun v => ⟨fun evaluated => ?_, ?_⟩, ?_, fun none => ?_⟩
  · obtain ⟨d, rfl⟩ := exists_derivation h evaluated
    refine ⟨d, unique d, ?_⟩
    rw [evaluate_derived h] at evaluated
    exact Except.ok.inj evaluated
  · rintro ⟨d, only, rfl⟩
    obtain rfl := (only d).mpr rfl
    exact evaluate_derived h symbols
  · rintro ⟨e, failed⟩ d rfl
    rw [evaluate_derived h] at failed
    cases failed
  · cases evaluated : evaluate symbols expr with
    | error e => exact ⟨e, rfl⟩
    | ok v =>
      obtain ⟨d, spelt⟩ := exists_derivation h evaluated
      exact absurd spelt (none d)

/-- Comparisons group to the left, and bind tighter than the alternatives around them. -/
theorem evaluate_iff_derivation_comparisons :
    let expr := "A || !(B && C) == false != D && B".toList
    let ws : List Word := [.name "A", .bars, .bang, .openParen, .name "B", .ampersands, .name "C",
      .closeParen, .equals, .name "false", .bangEquals, .name "D", .ampersands, .name "B"]
    words expr = some ws ∧
      ∃ d : Derivation .or, (∀ d' : Derivation .or, d'.words = ws ↔ d' = d) ∧
        d.value ["B"] = false := by
  intro expr ws
  have read : words expr = some ws := by decide +kernel
  have value : evaluate ["B"] expr = .ok false := eq_ok_of_toOption (by decide +kernel)
  exact ⟨read, ((evaluate_iff_derivation read ["B"]).1 false).mp value⟩

end CSharpTidy.Condition
