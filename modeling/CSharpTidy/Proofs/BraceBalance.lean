import CSharpTidy.Proofs.OutlineEnds
import CSharpTidy.Proofs.TextPieces

/- Braces of a file that is read. Most braces must match, but those in attribute lists and in the
   brackets of a type's or namespace's header are passed over: a brace there may stand alone, and
   the rest of the file is read as if it were not there. -/
namespace CSharpTidy

variable {ls rest : List Lexeme} {l : Lexeme}

namespace Lexeme

def openers (ls : List Lexeme) : Nat :=
  ls.countP (·.is "\x7b")

def closers (ls : List Lexeme) : Nat :=
  ls.countP (·.is "\x7d")

/-- The braces lead from depth `n` to depth `m`, and none of them closes what is not open. -/
structure Leads (n m : Nat) (ls : List Lexeme) : Prop where
  within : ∀ k, closers (ls.take k) ≤ n + openers (ls.take k)
  ends : n + openers ls = m + closers ls

/-- No part at the front has more closing than opening braces, and the whole has as many. -/
def Balanced (ls : List Lexeme) : Prop :=
  Leads 0 0 ls

namespace Leads

theorem nil (n : Nat) : Leads n n [] :=
  ⟨by simp [openers, closers], rfl⟩

variable {n m : Nat}

theorem append {k : Nat} {ms : List Lexeme} (first : Leads n m ls) (second : Leads m k ms) :
    Leads n k (ls ++ ms) := by
  refine ⟨fun i => ?_, ?_⟩
  · rw [List.take_append]
    have before := first.within i
    have behind := second.within (i - ls.length)
    simp only [openers, closers, List.countP_append] at before behind ⊢
    by_cases inside : i ≤ ls.length
    · simp [Nat.sub_eq_zero_of_le inside]
      exact before
    · have ended := first.ends
      rw [List.take_of_length_le (by omega)] at before ⊢
      simp only [openers, closers] at ended
      omega
  · have before := first.ends
    have behind := second.ends
    simp only [openers, closers, List.countP_append] at before behind ⊢
    omega

theorem lift (h : Leads n m ls) (k : Nat) : Leads (n + k) (m + k) ls := by
  refine ⟨fun i => ?_, ?_⟩
  · have := h.within i
    omega
  · have := h.ends
    omega

theorem single (counts : n + openers [l] = m + closers [l]) : Leads n m [l] := by
  refine ⟨fun k => ?_, counts⟩
  cases k with
  | zero => simp [openers, closers]
  | succ k =>
    rw [List.take_of_length_le (by simp)]
    omega

theorem opener (h : l.is "\x7b") (n : Nat) : Leads n (n + 1) [l] := by
  have other : l.is "\x7d" = false := by
    simp only [is, Bool.and_eq_true, beq_iff_eq] at h
    simp [is, h.2]
  exact single (by simp [openers, closers, h, other])

theorem closer (h : l.is "\x7d") (n : Nat) : Leads (n + 1) n [l] := by
  have other : l.is "\x7b" = false := by
    simp only [is, Bool.and_eq_true, beq_iff_eq] at h
    simp [is, h.2]
  exact single (by simp [openers, closers, h, other])

theorem plain (h : l.isBrace = false) (n : Nat) : Leads n n [l] := by
  simp only [isBrace, Bool.or_eq_false_iff] at h
  exact single (by simp [openers, closers, h])

theorem bare (h : ∀ l ∈ ls, l.isBrace = false) (n : Nat) : Leads n n ls := by
  induction ls with
  | nil => exact nil n
  | cons l ls ih =>
    rw [List.forall_mem_cons] at h
    exact append (plain h.1 n) (ih h.2)

end Leads

theorem afterGroup_leads {inner : Nat} {after : List Lexeme}
    (h : afterGroup "\x7b" "\x7d" inner ls = some after) :
    ∃ group, ls = group ++ after ∧ Leads (inner + 1) 0 group := by
  fun_induction afterGroup "\x7b" "\x7d" inner ls with
  | case1 => cases h
  | case2 inner l ls opens ih =>
    obtain ⟨group, rfl, leads⟩ := ih h
    exact ⟨l :: group, rfl, (Leads.opener opens _).append leads⟩
  | case3 l ls _ closes =>
    cases h
    exact ⟨[l], rfl, .closer closes 0⟩
  | case4 l ls _ closes inner ih =>
    obtain ⟨group, rfl, leads⟩ := ih h
    exact ⟨l :: group, rfl, (Leads.closer closes _).append leads⟩
  | case5 inner l ls opens closes ih =>
    obtain ⟨group, rfl, leads⟩ := ih h
    exact ⟨l :: group, rfl, (Leads.plain (by simp [isBrace, opens, closes]) _).append leads⟩

def BracesPunctuate (ls : List Lexeme) : Prop :=
  ∀ l ∈ ls, l.isBrace → l.isPunct

theorem BracesPunctuate.suffix (h : BracesPunctuate ls) (suffix : rest <:+ ls) :
    BracesPunctuate rest :=
  fun l mem => h l (suffix.subset mem)

theorem BracesPunctuate.tail (h : BracesPunctuate (l :: ls)) : BracesPunctuate ls :=
  h.suffix (List.suffix_cons l ls)

variable {text : String}

theorem is_of_isPunct (punct : l.isPunct) (h : l.text = text) : l.is text := by
  have kind : (l.kind == .punct) = true := punct
  simp [is, kind, h]

theorem text_of_is (h : l.is text) : l.text = text := by
  simp only [is, Bool.and_eq_true, beq_iff_eq] at h
  exact h.2

theorem isBrace_eq_false (opener : l.text ≠ "\x7b") (closer : l.text ≠ "\x7d") :
    l.isBrace = false := by
  simp [isBrace, is, opener, closer]

end Lexeme

namespace Outline

open Lexeme

variable {body : Body Entry} {item : Item} {closing marks inner : List Lexeme} {word : String}
  {p : Partial} {opener : Lexeme} {depth : Nat}

theorem afterMember_balanced {initialiser : Bool} (h : afterMember depth initialiser ls = .ok rest)
    (punctuate : BracesPunctuate ls) : ∃ own, ls = own ++ rest ∧ Balanced own := by
  -- each step passes one lexeme that is no brace, or a group
  have pass : ∀ {l : Lexeme} {ls : List Lexeme}, l.isBrace = false →
      (∃ own, ls = own ++ rest ∧ Balanced own) → ∃ own, l :: ls = own ++ rest ∧ Balanced own := by
    rintro l ls plain ⟨own, rfl, balanced⟩
    exact ⟨l :: own, rfl, (Leads.plain plain 0).append balanced⟩
  have group : ∀ {l : Lexeme} {ls after : List Lexeme}, l.isPunct → l.text = "\x7b" →
      afterGroup "\x7b" "\x7d" 0 ls = some after → ∃ front, l :: ls = front ++ after ∧
        Balanced front := by
    intro l ls after punct text found
    obtain ⟨front, rfl, leads⟩ := afterGroup_leads found
    exact ⟨l :: front, rfl, (Leads.opener (is_of_isPunct punct text) 0).append leads⟩
  have join : ∀ {ls after : List Lexeme}, (∃ front, ls = front ++ after ∧ Balanced front) →
      (∃ own, after = own ++ rest ∧ Balanced own) → ∃ own, ls = own ++ rest ∧ Balanced own := by
    rintro ls after ⟨front, rfl, first⟩ ⟨own, rfl, second⟩
    exact ⟨front ++ own, (List.append_assoc ..).symm, first.append second⟩
  fun_induction afterMember depth initialiser ls
  case case1 | case4 | case8 | case12 => cases h
  case case7 =>
    cases h
    exact ⟨[_], rfl, .plain (by grind [isBrace, is]) 0⟩
  case case2 ih | case3 ih | case5 ih | case6 ih | case13 ih =>
    have marks := punctuate _ List.mem_cons_self
    exact pass (by grind [isBrace, is]) (ih h punctuate.tail)
  case case10 punct _ _ _ _ text after found _ _ =>
    cases h
    exact group (by simpa using punct) (by simpa using text) found
  case case9 punct _ _ _ _ text after found _ _ ih | case11 punct _ _ _ _ text after found _ ih =>
    obtain ⟨own, whole, balanced⟩ := group (by simpa using punct) (by simpa using text) found
    exact join ⟨own, whole, balanced⟩ (ih h (punctuate.suffix ⟨own, whole.symm⟩))

/-- The lexemes of a header that are in none of its round or square brackets. -/
def unbracketed : Nat → List Lexeme → List Lexeme
  | _, [] => []
  | depth, l :: rest =>
      if l.isPunct && (l.text == "(" || l.text == "[") then unbracketed (depth + 1) rest
      else if l.isPunct && (l.text == ")" || l.text == "]") then unbracketed (depth - 1) rest
      else if depth == 0 then l :: unbracketed depth rest
      else unbracketed depth rest

def typeKeywords : List String :=
  ["namespace", "class", "interface", "enum", "struct", "record"]

/-- The modifiers, keyword and header of a type or namespace up to its body or semicolon. Braces
open in its brackets only, and none closes. -/
structure TypeHeader (header : List Lexeme) : Prop where
  keyword : ∃ word ∈ typeKeywords, startsWith (header.dropWhile Lexeme.isModifier) word
  opened : ∀ l ∈ unbracketed 0 header, l.is "\x7b" = false
  closed : ∀ l ∈ header, l.is "\x7d" = false

theorem headerEnd_cut (h : headerEnd depth ls = .ok (l, rest)) (punctuate : BracesPunctuate ls) :
    ∃ header, ls = header ++ l :: rest ∧ (l.is "\x7b" ∨ l.is ";") ∧
      (∀ m ∈ unbracketed depth header, m.is "\x7b" = false) ∧
      ∀ m ∈ header, m.is "\x7d" = false := by
  fun_induction headerEnd depth ls
  case case1 | case6 => cases h
  case case5 punct _ _ found =>
    cases h
    simp only [Bool.and_eq_true, Bool.or_eq_true, beq_iff_eq] at found
    refine ⟨[], rfl, ?_, by simp [unbracketed], by simp⟩
    exact found.1.imp (is_of_isPunct (by simpa using punct)) (is_of_isPunct (by simpa using punct))
  case case2 ih | case3 ih | case4 ih | case7 ih =>
    obtain ⟨header, rfl, ends, opened, closed⟩ := ih h punctuate.tail
    -- A brace that is no punctuation mark would be passed over as a word.
    have marks := punctuate _ List.mem_cons_self
    refine ⟨_ :: header, rfl, ends, ?_, List.forall_mem_cons.mpr
      ⟨by grind [isBrace, is], closed⟩⟩
    grind [unbracketed, isBrace, is]

theorem isBrace_of_isModifier (h : l.isModifier) : l.isBrace = false := by
  simp only [isModifier, Bool.and_eq_true, List.contains_iff_mem] at h
  refine isBrace_eq_false ?_ ?_ <;> intro text <;> rw [text] at h <;> exact absurd h.2 (by decide)

theorem unbracketed_modifiers (modifying : ∀ l ∈ marks, l.isModifier) (ls : List Lexeme) :
    unbracketed 0 (marks ++ ls) = marks ++ unbracketed 0 ls := by
  induction marks with
  | nil => rfl
  | cons l marks ih =>
    rw [List.forall_mem_cons] at modifying
    have word : l.isPunct = false := by
      have := modifying.1
      simp only [isModifier, isWord, Bool.and_eq_true, beq_iff_eq] at this
      simp [isPunct, this.1]
    simp [unbracketed, word, ih modifying.2]

theorem TypeHeader.of_cut {header : List Lexeme} (modifying : ∀ m ∈ marks, m.isModifier)
    (keyword : word ∈ typeKeywords) (starts : startsWith (header ++ l :: rest) word)
    (ends : l.is "\x7b" ∨ l.is ";") (opened : ∀ m ∈ unbracketed 0 header, m.is "\x7b" = false)
    (closed : ∀ m ∈ header, m.is "\x7d" = false) : TypeHeader (marks ++ header) := by
  refine ⟨⟨word, keyword, ?_⟩, ?_, ?_⟩
  · rw [List.dropWhile_append_of_pos modifying]
    cases header with
    | nil =>
      have text : l.text = word := text_of_is (by simpa [startsWith] using starts)
      rcases ends with brace | semicolon
      · rw [← text, text_of_is brace] at keyword
        exact absurd keyword (by decide)
      · rw [← text, text_of_is semicolon] at keyword
        exact absurd keyword (by decide)
    | cons k header =>
      have is : k.is word := by simpa [startsWith] using starts
      have unmodified : k.isModifier = false := by
        have apart : ∀ w ∈ typeKeywords, w ∉ modifiers := by decide
        simp [isModifier, text_of_is is, apart word keyword]
      rw [List.dropWhile_cons_of_neg (by simp [unmodified])]
      simpa [startsWith] using is
  · rw [unbracketed_modifiers modifying, List.forall_mem_append]
    exact ⟨fun m mem => (Bool.or_eq_false_iff.mp (isBrace_of_isModifier (modifying m mem))).1,
      opened⟩
  · rw [List.forall_mem_append]
    exact ⟨fun m mem => (Bool.or_eq_false_iff.mp (isBrace_of_isModifier (modifying m mem))).2,
      closed⟩

def Passed (ls after : List Lexeme) : Prop :=
  ∃ lists header text, ls = lists ++ header ++ text ++ after ∧ AttributeLists lists ∧
    (header = [] ∨ TypeHeader header) ∧ Balanced text

def Opened (braced : Bool) (ls after : List Lexeme) : Prop :=
  ∃ lists header opener, ls = lists ++ header ++ [opener] ++ after ∧ AttributeLists lists ∧
    TypeHeader header ∧ opener.is (if braced then "\x7b" else ";")

def Item.Layered : Item → List Lexeme → List Lexeme → Prop
  | .container _ _ braced, ls, after => Opened braced ls after
  | _, ls, after => Passed ls after

theorem readImport_layered (h : readImport ls = .ok (item, rest)) : item.Layered ls rest := by
  unfold readImport at h
  split at h
  · cases h
  · rename_i found
    cases h
    obtain ⟨own, rfl, -, bare, -⟩ := afterSemicolon_local found
    exact ⟨[], [], own, rfl, .nil, .inl rfl, .bare bare 0⟩

theorem readGlobalAttribute_layered (h : readGlobalAttribute ls = .ok (item, rest))
    (starts : startsGlobalAttribute ls) : item.Layered ls rest := by
  unfold readGlobalAttribute at h
  split at h
  · cases h
  · rename_i found
    cases h
    obtain ⟨list, tail, closed⟩ := afterGroup_cut found
    cases ls with
    | nil => cases starts
    | cons l ls =>
      simp only [startsGlobalAttribute, startsWith, List.head?_cons, Option.any_some,
        Bool.and_eq_true] at starts
      rw [List.tail_cons] at tail
      refine ⟨l :: list, [], [], by simp [tail], ?_, .inl rfl, .nil 0⟩
      simpa using AttributeLists.cons starts.1.1 closed .nil

theorem closing_cut (ls : List Lexeme) : ∃ ending, ls = ending ++ ls.drop (closingSize ls - 1) ∧
    closingSize ls = ending.length + 1 ∧ ∀ l ∈ ending, l.isBrace = false := by
  cases ls with
  | nil => exact ⟨[], rfl, rfl, by simp⟩
  | cons l ls =>
    by_cases semicolon : l.is ";"
    · refine ⟨[l], by simp [closingSize, startsWith, semicolon],
        by simp [closingSize, startsWith, semicolon], ?_⟩
      simp [isBrace, is, text_of_is semicolon]
    · exact ⟨[], by simp [closingSize, startsWith, semicolon],
        by simp [closingSize, startsWith, semicolon], by simp⟩

theorem drop_closing (ls : List Lexeme) :
    (if startsWith ls ";" then ls.tail else ls) = ls.drop (closingSize ls - 1) := by
  unfold closingSize
  split <;> simp

section
variable {lists marks keyword rest : List Lexeme} {item : Item} (attributes : AttributeLists lists)
  (modifying : ∀ m ∈ marks, m.isModifier) (punctuate : BracesPunctuate keyword)
include attributes modifying punctuate

variable {visibility : Visibility}

theorem readContainer_layered {kind : ContainerKind} (known : word ∈ typeKeywords)
    (starts : startsWith keyword word)
    (h : readContainer kind visibility (lists ++ (marks ++ keyword)) keyword = .ok (item, rest)) :
    item.Layered (lists ++ (marks ++ keyword)) rest := by
  unfold readContainer at h
  split at h
  · cases h
  · rename_i l after found
    obtain ⟨header, rfl, ends, opened, closed⟩ := headerEnd_cut found punctuate
    have typed := TypeHeader.of_cut modifying known starts ends opened closed
    simp only at h
    rcases ends with brace | semicolon
    · rw [if_pos (by simp [text_of_is brace])] at h
      cases h
      exact ⟨lists, marks ++ header, l, by simp, attributes, typed, brace⟩
    · rw [if_neg (by simp [text_of_is semicolon])] at h
      split at h <;> cases h
      · exact ⟨lists, marks ++ header, l, by simp, attributes, typed, semicolon⟩
      · exact ⟨lists, marks ++ header, [l], by simp, attributes, .inr typed,
          .plain (by simp [isBrace, is, text_of_is semicolon]) 0⟩

theorem readWholeType_layered {kind : DeclKind} {key : DeclKey} (known : word ∈ typeKeywords)
    (starts : startsWith keyword word)
    (h : readWholeType kind key visibility (lists ++ (marks ++ keyword)) keyword = .ok (item, rest)) :
    item.Layered (lists ++ (marks ++ keyword)) rest := by
  unfold readWholeType at h
  simp only at h
  split at h
  · cases h
  · rename_i l after found
    obtain ⟨header, rfl, ends, opened, closed⟩ := headerEnd_cut found punctuate
    have typed := TypeHeader.of_cut modifying known starts ends opened closed
    rcases ends with brace | semicolon
    · rw [if_pos (by simp [text_of_is brace])] at h
      split at h
      · cases h
      · rename_i behind group
        cases h
        obtain ⟨own, rfl, leads⟩ := afterGroup_leads group
        obtain ⟨ending, whole, -, bare⟩ := closing_cut behind
        refine ⟨lists, marks ++ header, l :: (own ++ ending), ?_, attributes, .inr typed,
          (Leads.opener brace 0).append (leads.append (.bare bare 0))⟩
        rw [drop_closing]
        nth_rewrite 1 [whole]
        simp
    · rw [if_neg (by simp [text_of_is semicolon])] at h
      cases h
      have plain : l.isBrace = false := by simp [isBrace, is, text_of_is semicolon]
      exact ⟨lists, marks ++ header, [l], by simp, attributes, .inr typed, .plain plain 0⟩

theorem readPlainMember_layered {scope : Scope}
    (h : readPlainMember scope visibility (lists ++ (marks ++ keyword)) keyword = .ok (item, rest)) :
    item.Layered (lists ++ (marks ++ keyword)) rest := by
  unfold readPlainMember at h
  split at h
  · cases h
  · rename_i found
    cases h
    obtain ⟨own, rfl, balanced⟩ := afterMember_balanced found punctuate
    have bare : ∀ l ∈ marks, l.isBrace = false :=
      fun l mem => isBrace_of_isModifier (modifying l mem)
    exact ⟨lists, [], marks ++ own, by simp, attributes, .inl rfl,
      (Leads.bare bare 0).append balanced⟩

end

theorem readMember_layered {scope : Scope} (h : readMember scope ls = .ok (item, rest))
    (punctuate : BracesPunctuate ls) : item.Layered ls rest := by
  unfold readMember at h
  split at h
  · cases h
  · rename_i unattributed found
    obtain ⟨-, lists, rfl, attributes, -⟩ := afterAttributes_local found
    have modifying : ∀ m ∈ unattributed.takeWhile Lexeme.isModifier, m.isModifier :=
      fun m mem => List.mem_takeWhile_imp mem
    have whole := List.takeWhile_append_dropWhile (p := Lexeme.isModifier) (l := unattributed)
    simp only at h
    generalize unattributed.takeWhile Lexeme.isModifier = marks at h modifying whole
    generalize unattributed.dropWhile Lexeme.isModifier = head at h whole
    subst whole
    have punctuated : BracesPunctuate head :=
      punctuate.suffix ((List.suffix_append marks head).trans (List.suffix_append lists _))
    split_ifs at h with namespaces classes interfaces enums structs records
    · exact readContainer_layered attributes modifying punctuated (by decide) namespaces h
    · exact readContainer_layered attributes modifying punctuated (by decide) classes h
    · exact readContainer_layered attributes modifying punctuated (by decide) interfaces h
    · exact readWholeType_layered attributes modifying punctuated (by decide) enums h
    · exact readWholeType_layered attributes modifying punctuated (by decide) structs h
    · exact readWholeType_layered attributes modifying punctuated (by decide)
        (Bool.and_eq_true_iff.mp records).1 h
    · exact readPlainMember_layered attributes modifying punctuated h

theorem Partial.read_layered (h : p.read ls = .ok (item, rest)) (punctuate : BracesPunctuate ls) :
    item.Layered ls rest := by
  unfold Partial.read at h
  simp only at h
  split at h
  · exact readImport_layered h
  · split at h
    · rename_i starts
      exact readGlobalAttribute_layered h (by simp_all)
    · exact readMember_layered h punctuate

def Body.entries (b : Body Entry) : List Entry :=
  b.imports ++ b.attributes ++ b.members

/-- What stands around a body: braces, of which a semicolon may follow the second, or only a
semicolon in front of it. -/
def Delimits : Bool → Lexeme → List Lexeme → Prop
  | true, opener, closing => opener.is "\x7b" ∧
      ∃ closer ending, closing = closer :: ending ∧ closer.is "\x7d" ∧
        ∀ l ∈ ending, l.isBrace = false
  | false, opener, closing => opener.is ";" ∧ closing = []

/-- Declarations one after the other: their lexemes, those in which braces must match, and those in
which braces are passed over, which are the attribute lists of each declaration and the headers of
types and namespaces. -/
inductive Declared : List Entry → List Lexeme → List Lexeme → List (List Lexeme) → Prop
  | nil : Declared [] [] [] []
  | member {e : Entry} {es : List Entry} {lists header text ls core : List Lexeme}
      {hidden : List (List Lexeme)}
      (size : e.size = (lists ++ header ++ text).length) (whole : e.body = none)
      (attributes : AttributeLists lists) (typed : header = [] ∨ TypeHeader header)
      (balanced : Balanced text) (rest : Declared es ls core hidden) :
      Declared (e :: es) (lists ++ header ++ text ++ ls) (text ++ core) (lists :: header :: hidden)
  | container {e : Entry} {b : Body Entry} {es : List Entry} {opener : Lexeme}
      {lists header inner innerCore closing ls core : List Lexeme}
      {innerHidden hidden : List (List Lexeme)}
      (size : e.size = (lists ++ header ++ [opener]).length) (closed : b.closing = closing.length)
      (attributes : AttributeLists lists) (typed : TypeHeader header)
      (delimited : Delimits b.braced opener closing)
      (body : Declared b.entries inner innerCore innerHidden)
      (rest : Declared es ls core hidden) :
      Declared ({ e with body := some b } :: es)
        (lists ++ header ++ opener :: (inner ++ (closing ++ ls)))
        (opener :: (innerCore ++ (closing ++ core))) (lists :: header :: (innerHidden ++ hidden))

theorem Delimits.balanced {braced : Bool} (h : Delimits braced opener closing)
    (body : Balanced inner) (rest : Balanced ls) :
    Balanced (opener :: (inner ++ (closing ++ ls))) := by
  cases braced with
  | true =>
    obtain ⟨opens, closer, ending, rfl, closes, bare⟩ := h
    exact (Leads.opener opens 0).append ((body.lift 1).append
      (((Leads.closer closes 0).append (.bare bare 0)).append rest))
  | false =>
    obtain ⟨opens, rfl⟩ := h
    exact (Leads.plain (by simp [isBrace, is, text_of_is opens]) 0).append (body.append rest)

namespace Declared

variable {es fs : List Entry} {ls ms core core' : List Lexeme} {hidden hidden' : List (List Lexeme)}

theorem core_balanced (h : Declared es ls core hidden) : Balanced core := by
  induction h with
  | nil => exact .nil 0
  | member _ _ _ _ balanced _ ih => exact balanced.append ih
  | container _ _ _ _ delimited _ _ body rest => exact delimited.balanced body rest

theorem balanced (h : Declared es ls core hidden) (each : ∀ part ∈ hidden, Balanced part) :
    Balanced ls := by
  induction h with
  | nil => exact .nil 0
  | member _ _ _ _ balanced _ ih =>
    simp only [List.forall_mem_cons] at each
    exact ((each.1.append each.2.1).append balanced).append (ih each.2.2)
  | container _ _ _ _ delimited _ _ body rest =>
    simp only [List.forall_mem_cons, List.forall_mem_append] at each
    obtain ⟨lists, header, inside, after⟩ := each
    exact (lists.append header).append (delimited.balanced (body inside) (rest after))

theorem append (first : Declared es ls core hidden) (second : Declared fs ms core' hidden') :
    Declared (es ++ fs) (ls ++ ms) (core ++ core') (hidden ++ hidden') := by
  induction first with
  | nil => exact second
  | member size whole attributes typed balanced _ ih =>
    simpa only [List.append_assoc, List.cons_append] using
      member size whole attributes typed balanced ih
  | container size closed attributes typed delimited body _ _ ih =>
    simpa only [List.append_assoc, List.cons_append] using
      container size closed attributes typed delimited body ih

end Declared

def Layered (es : List Entry) (ls : List Lexeme) : Prop :=
  ∃ core hidden, Declared es ls core hidden

theorem Layered.append {es fs : List Entry} {ms : List Lexeme} (first : Layered es ls)
    (second : Layered fs ms) : Layered (es ++ fs) (ls ++ ms) := by
  obtain ⟨core, hidden, first⟩ := first
  obtain ⟨core', hidden', second⟩ := second
  exact ⟨_, _, first.append second⟩

theorem Layered.container {header : Entry} {lists words : List Lexeme}
    (h : Layered body.entries inner) (size : header.size = (lists ++ words ++ [opener]).length)
    (closed : body.closing = closing.length) (attributes : AttributeLists lists)
    (typed : TypeHeader words) (delimited : Delimits body.braced opener closing) :
    Layered [{ header with body := some body }]
      (lists ++ words ++ [opener] ++ inner ++ closing) := by
  obtain ⟨core, hidden, declared⟩ := h
  have whole := Declared.container size closed attributes typed delimited declared .nil
  exact ⟨_, _, by simpa using whole⟩

theorem Partial.entries_add (role : Role) (awaits : role.Awaits p) (e : Entry) :
    (role.add p [e]).body.entries = p.body.entries ++ [e] := by
  cases role <;> simp_all [Body.entries, Role.add, Role.Awaits]

theorem Layered.read {after done : List Lexeme} (h : Layered p.body.entries done)
    (read : p.read ls = .ok (item, after)) (passed : Passed ls after) :
 ∃ own, ls = own ++ after ∧
      Layered (item.role.add p [item.entry]).body.entries (done ++ own) := by
  obtain ⟨lists, header, text, rfl, attributes, typed, balanced⟩ := passed
  obtain ⟨known, awaits⟩ := Partial.read_known read
  have declared := Declared.member (known.size.trans (extent_append _ after)) known.body attributes
    typed balanced .nil
  rw [List.append_nil] at declared
  rw [Partial.entries_add _ awaits]
  exact ⟨_, rfl, h.append ⟨_, _, declared⟩⟩

def Enclosing : Bool → List (Entry × Partial) → List Lexeme → Prop
  | _, [], before => before = []
  | braced, (header, parent) :: outer, before => ∃ outerBefore done lists words opener,
      before = outerBefore ++ done ++ (lists ++ words ++ [opener]) ∧
      Enclosing parent.body.braced outer outerBefore ∧ Layered parent.body.entries done ∧
      parent.body.closing = 0 ∧ header.size = (lists ++ words ++ [opener]).length ∧
      AttributeLists lists ∧ TypeHeader words ∧ opener.is (if braced then "\x7b" else ";")

theorem read_entries {current : Partial} {outer : List (Entry × Partial)}
    (h : read current outer ls = .ok body) (punctuate : BracesPunctuate ls)
    {before done : List Lexeme} (outside : Enclosing current.body.braced outer before)
    (known : Layered current.body.entries done) (unclosed : current.body.closing = 0) :
    Layered body.entries (before ++ done ++ ls) := by
  have behind : ∀ {p : Partial} {ls after : List Lexeme} {item : Item},
      p.read ls = .ok (item, after) → BracesPunctuate ls → BracesPunctuate after :=
    fun found known => known.suffix (Partial.read_suffix found)
  fun_induction read current outer ls generalizing before done with
  | case1 => cases h
  | case2 current unbraced =>
    cases h
    cases outside
    simpa using known
  | case3 current unbraced header parent outer ih =>
    obtain ⟨outerBefore, outerDone, lists, words, opener, rfl, outside, outerKnown, outerUnclosed,
      size, attributes, typed, opens⟩ := outside
    have unbraced : current.body.braced = false := by simpa using unbraced
    rw [unbraced] at opens
    have container : Layered [{ header with body := some current.body }]
        (lists ++ words ++ [opener] ++ done ++ []) :=
      known.container size unclosed attributes typed (by rw [unbraced]; exact ⟨opens, rfl⟩)
    have added := outerKnown.append container
    rw [← Partial.entries_add .member trivial] at added
    simpa using ih h punctuate outside added outerUnclosed
  | case4 current l rest closes header parent outer braced size ih =>
    obtain ⟨outerBefore, outerDone, lists, words, opener, rfl, outside, outerKnown, outerUnclosed,
      length, attributes, typed, opens⟩ := outside
    rw [braced] at opens
    obtain ⟨ending, whole, closing, bare⟩ := closing_cut rest
    have container : Layered [{ header with body := some { current.body with closing := size } }]
        (lists ++ words ++ [opener] ++ done ++ l :: ending) :=
      Layered.container known length closing attributes typed
        (by rw [braced]; exact ⟨opens, l, ending, rfl, closes, bare⟩)
    have added := outerKnown.append container
    rw [← Partial.entries_add .member trivial] at added
    have left := ih h (punctuate.suffix ((List.drop_suffix _ rest).trans (List.suffix_cons l rest)))
      outside added outerUnclosed
    nth_rewrite 1 [whole]
    simpa [size] using left
  | case5 => cases h
  | case6 => cases h
  | case7 current outer l rest _ e after item ih =>
    obtain ⟨own, whole, added⟩ := known.read item (Partial.read_layered item punctuate)
    rw [whole]
    simpa using ih h (behind item punctuate) outside added unclosed
  | case8 current outer l rest _ e after item ih =>
    obtain ⟨own, whole, added⟩ := known.read item (Partial.read_layered item punctuate)
    rw [whole]
    simpa using ih h (behind item punctuate) outside added unclosed
  | case9 current outer l rest _ e after item ih =>
    obtain ⟨own, whole, added⟩ := known.read item (Partial.read_layered item punctuate)
    rw [whole]
    simpa using ih h (behind item punctuate) outside added unclosed
  | case10 current outer l rest _ header scope braced after item ih =>
    obtain ⟨lists, words, opener, whole, attributes, typed, opens⟩ :=
      Partial.read_layered item punctuate
    have size : header.size = (lists ++ words ++ [opener]).length := by
      rw [← extent_append, ← whole]
      exact (Partial.read_known item).1.size
    have inside := ih h (behind item punctuate)
      ⟨before, done, lists, words, opener, rfl, outside, known, unclosed, size, attributes, typed,
        opens⟩ ⟨[], [], .nil⟩ rfl
    rw [whole]
    simpa using inside

theorem ofLexemes_declared (h : ofLexemes ls = .ok body) (punctuate : BracesPunctuate ls) :
    ∃ core hidden, Declared body.entries ls core hidden :=
  read_entries h punctuate rfl ⟨[], [], .nil⟩ rfl

end Outline

/-! Of the lexemes of a text, only punctuation marks look like braces. -/

theorem Cursor.tokens_punctuate {c : Cursor} {s : TokenStream} (h : c.tokens = .ok s) :
    Lexeme.BracesPunctuate (s.tokens.map Token.toLexeme) :=
  List.forall_mem_map.mpr (tokens_forall h fun _ _ found _ brace => by
    have words := lexeme_word found
    grind [Lexeme.isBrace, Lexeme.is, Lexeme.isWord, Lexeme.isPunct])

/-- In a file that is read, braces match outside of attribute lists and of the headers of types and
namespaces, and so all of them do where they match inside of each of those, too. -/
theorem SourceFile.parse_braces {source : List Char} {symbols : List String} {file : SourceFile}
    (h : parse source symbols = .ok file) : ∃ stream outline core hidden,
      tokenize (if source.head? == some CSharpTidy.byteOrderMark then source.tail else source)
        symbols = .ok stream ∧
      Outline.ofLexemes (stream.tokens.map Token.toLexeme) = .ok outline ∧
      Outline.Declared outline.entries (stream.tokens.map Token.toLexeme) core hidden ∧
      Lexeme.Balanced core ∧
      ((∀ part ∈ hidden, Lexeme.Balanced part) →
        Lexeme.Balanced (stream.tokens.map Token.toLexeme)) := by
  obtain ⟨stream, inner, tokenized, built, -⟩ := parse_stream h
  have read : ∃ outline, Outline.ofLexemes (stream.tokens.map Token.toLexeme) = .ok outline := by
    unfold ofTokens at built
    split at built
    · cases built
    · exact ⟨_, by assumption⟩
  obtain ⟨outline, read⟩ := read
  obtain ⟨core, hidden, declared⟩ :=
    Outline.ofLexemes_declared read (Cursor.tokens_punctuate tokenized)
  exact ⟨stream, outline, core, hidden, tokenized, read, declared, declared.core_balanced,
    declared.balanced⟩

/-- A lone brace in an attribute list is passed over. -/
theorem SourceFile.parse_braces_lone : ∃ file stream outline core hidden,
    parse "[assembly: \x7d]\n".toList [] = .ok file ∧
    tokenize "[assembly: \x7d]\n".toList [] = .ok stream ∧
    Outline.ofLexemes (stream.tokens.map Token.toLexeme) = .ok outline ∧
    Outline.Declared outline.entries (stream.tokens.map Token.toLexeme) core hidden ∧
    Lexeme.Balanced core ∧ ¬ Lexeme.Balanced (stream.tokens.map Token.toLexeme) ∧
    ∃ part ∈ hidden, ¬ Lexeme.Balanced part := by
  obtain ⟨file, read⟩ := ok_of_isOk
    (show (parse "[assembly: \x7d]\n".toList []).isOk by decide +kernel)
  obtain ⟨stream, outline, core, hidden, tokenized, outlined, declared, matched, balanced⟩ :=
    parse_braces read
  have counts : (tokenize "[assembly: \x7d]\n".toList []).toOption.map (fun stream =>
      (Lexeme.openers (stream.tokens.map Token.toLexeme),
        Lexeme.closers (stream.tokens.map Token.toLexeme))) = some (0, 1) := by decide +kernel
  have lone : ¬ Lexeme.Balanced (stream.tokens.map Token.toLexeme) := by
    intro all
    have text : tokenize "[assembly: \x7d]\n".toList [] = .ok stream := tokenized
    rw [text] at counts
    obtain ⟨none, one⟩ := Prod.mk.inj (Option.some.inj counts)
    have ends := all.ends
    omega
  refine ⟨file, stream, outline, core, hidden, read, tokenized, outlined, declared, matched, lone,
    ?_⟩
  by_contra bare
  simp only [not_exists, not_and, not_not] at bare
  exact lone (balanced bare)

end CSharpTidy
