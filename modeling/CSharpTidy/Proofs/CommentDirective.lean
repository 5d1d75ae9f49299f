import CSharpTidy.Proofs.ByteRows
import CSharpTidy.Proofs.ElementShapes

/- Directives to the tool among the tokens of a source. They are looked for row by row, where only a
   line feed ends a row, and without regard to tokens. So the rows that count are those with nothing
   but white space in front of a line comment, and those that start inside of a literal or a block
   comment. -/
namespace CSharpTidy

namespace Element

open Text FileDirective

/-- The rows that can be directives, where `passed` stands in front: those that start inside an
element, and those with an open front and then a line comment. -/
def openRows (passed : List Char) : List Element → List (List Char)
  | [] => []
  | e :: es =>
      (match e.role with
        | .enclosed => (Text.splitAt '\n' (e.text ++ rowRest (join es))).tail
        | .comment =>
            if opens (lastRow passed) then [lastRow passed ++ e.text ++ rowRest (join es)] else []
        | _ => []) ++ openRows (passed ++ e.text) es

theorem lineEnd_cases {s : List Char} (ends : IsTerminator (String.ofList s)) :
    s = ['\r'] ∨ ∃ blanks, (∀ c ∈ blanks, Text.isBlank c = true) ∧ '\n' ∉ blanks ∧
      s = blanks ++ ['\n'] := by
  have toList : s = (String.ofList s).toList := by simp
  rcases ends with eq | eq | eq
  · exact .inr ⟨[], by simp, by simp, by rw [toList, eq]; rfl⟩
  · exact .inl (by rw [toList, eq]; rfl)
  · exact .inr ⟨['\r'], by simp; decide, by simp, by rw [toList, eq]; rfl⟩

def Ruled (passed : List Char) (es : List Element) : Prop :=
  isDirective (withoutMarks (lastRow passed ++ rowRest (join es))) = false

def Pending (passed : List Char) (es : List Element) : Prop :=
  opens (lastRow passed) = true ∨ Ruled passed es

section

variable {e : Element} {es : List Element} {passed : List Char}

theorem join_cons : join (e :: es) = e.text ++ join es := rfl

theorem append_join (flat : '\n' ∉ e.text) :
    lastRow passed ++ join (e :: es) = lastRow (passed ++ e.text) ++ join es := by
  rw [join_cons, ← List.append_assoc, lastRow_append flat]

theorem append_rowRest (flat : '\n' ∉ e.text) :
    lastRow passed ++ rowRest (join (e :: es)) =
      lastRow (passed ++ e.text) ++ rowRest (join es) := by
  rw [join_cons, rowRest_append flat, ← List.append_assoc, lastRow_append flat]

variable {first later : List Char}

theorem rowRest_broken (text_eq : e.text = first ++ '\n' :: later) (flat : '\n' ∉ first) :
    rowRest (join (e :: es)) = first := by
  rw [join_cons, text_eq, List.append_assoc, rowRest_append flat]
  simp [rowRest]

theorem findIn_broken (text_eq : e.text = first ++ '\n' :: later) (flat : '\n' ∉ first)
    (ruled : Ruled passed (e :: es)) : findIn ((lastRow passed ++ join (e :: es)).splitOn '\n') =
      findIn ((later ++ join es).splitOn '\n') := by
  have single : '\n' ∉ lastRow passed ++ first :=
    List.not_mem_append (lineFeed_not_mem_lastRow passed) flat
  rw [Ruled, rowRest_broken text_eq flat] at ruled
  rw [join_cons, text_eq, List.append_assoc, List.cons_append, ← List.append_assoc,
    List.splitOn_append_cons_self_of_not_mem single, findIn, ruled]
  rfl

theorem lastRow_broken (passed : List Char) (text_eq : e.text = first ++ '\n' :: later) :
    lastRow (passed ++ e.text) = lastRow later := by
  rw [text_eq, ← List.append_assoc, lastRow_append_lineFeed]

theorem Ruled.append (ruled : Ruled passed (e :: es)) (flat : '\n' ∉ e.text) :
    Ruled (passed ++ e.text) es := by
  rwa [Ruled, ← append_rowRest flat]

theorem Pending.uncommented (pending : Pending passed (e :: es))
    (uncommented : Uncommented (e.text ++ join es)) : Ruled passed (e :: es) :=
  pending.elim (fun open_ => uncommented.isDirective open_) id

theorem Pending.space (pending : Pending passed (e :: es))
    (spaces : ∀ c ∈ e.text, isSpace c = true) (flat : '\n' ∉ e.text) :
    Pending (passed ++ e.text) es := by
  rcases pending with open_ | ruled
  · -- a byte order mark behind white space closes the row
    rw [Pending, Ruled, lastRow_append flat]
    cases still : opens (lastRow passed ++ e.text) with
    | true => exact .inl rfl
    | false =>
      have void : ∀ c ∈ e.text, isVoid c = true := fun c mem => isVoid_of_isSpace (spaces c mem)
      exact .inr (isDirective_of_mark open_ void still _)
  · exact .inr (ruled.append flat)

theorem Pending.lone (pending : Pending passed (e :: es)) (lone : e.text = ['\r']) :
    Pending (passed ++ e.text) es := by
  have flat : '\n' ∉ e.text := by simp [lone]
  rcases pending with open_ | ruled
  · left
    rw [lastRow_append flat]
    exact opens_append_blank open_ (by simp [lone]; decide)
  · exact .inr (ruled.append flat)

theorem Pending.lineEnd (pending : Pending passed (e :: es)) {blanks : List Char}
    (blank : ∀ c ∈ blanks, Text.isBlank c = true) (flat : '\n' ∉ blanks)
    (text_eq : e.text = blanks ++ ['\n']) : Ruled passed (e :: es) := by
  rcases pending with open_ | ruled
  · rw [Ruled, rowRest_broken text_eq flat]
    exact isDirective_of_opens (opens_append_blank open_ blank)
  · exact ruled

end

theorem findIn_openRows {es : List Element} (shaped : Shaped [] es) (passed : List Char)
    (pending : Pending passed es) :
    findIn ((lastRow passed ++ join es).splitOn '\n') = findIn (openRows passed es) := by
  induction es generalizing passed with
  | nil =>
    have single := lineFeed_not_mem_lastRow passed
    have none : isDirective (withoutMarks (lastRow passed)) = false := by
      rcases pending with open_ | ruled
      · exact isDirective_of_opens open_
      · simpa [Ruled, join, rowRest] using ruled
    simp [join, openRows, List.splitOn_eq_singleton single, findIn, none]
  | cons e es ih =>
    obtain ⟨shape, shaped⟩ := shaped
    cases shape with
    | space role spaces =>
      have flat : '\n' ∉ e.text := fun mem => absurd (spaces _ mem) (by decide)
      simp only [openRows, role, List.nil_append]
      rw [append_join flat]
      exact ih shaped _ (pending.space spaces flat)
    | lineEnd role ends =>
      simp only [openRows, role, List.nil_append]
      rcases lineEnd_cases ends with lone | ⟨blanks, blank, flat, text_eq⟩
      · rw [append_join (by simp [lone])]
        exact ih shaped _ (pending.lone lone)
      · have row_eq := lastRow_broken passed text_eq
        have fresh := ih shaped (passed ++ e.text) (.inl (by rw [row_eq]; rfl))
        rw [findIn_broken text_eq flat (pending.lineEnd blank flat text_eq), ← fresh, row_eq]
        rfl
    | comment role slash flat =>
      simp only [openRows, role]
      split
      · have row_eq : lastRow passed ++ e.text ++ rowRest (join es) =
            lastRow passed ++ rowRest (join (e :: es)) := by
          rw [append_rowRest flat, lastRow_append flat]
        rw [List.singleton_append, row_eq]
        apply findIn_row (lineFeed_not_mem_lastRow passed)
        intro ruled
        rw [append_join flat]
        exact ih shaped _ (.inr (Ruled.append ruled flat))
      · rename_i closed
        rw [List.nil_append, append_join flat]
        exact ih shaped _ (.inr ((pending.resolve_left closed).append flat))
    | enclosed role uncommented closed solid stops flat =>
      rw [List.append_nil] at uncommented
      have ruled := pending.uncommented uncommented
      simp only [openRows, role, Text.splitAt_eq]
      by_cases several : '\n' ∈ e.text
      · obtain ⟨first, later, text_eq, flat⟩ := List.eq_append_cons_of_mem several
        have inner : ((e.text ++ rowRest (join es)).splitOn '\n').tail =
            (later ++ rowRest (join es)).splitOn '\n' := by
          rw [text_eq, List.append_assoc, List.cons_append,
            List.splitOn_append_cons_self_of_not_mem flat, List.tail_cons]
        rw [findIn_broken text_eq flat ruled, inner]
        apply findIn_rows
        intro ruled
        rw [← lastRow_broken passed text_eq] at ruled ⊢
        exact ih shaped _ (.inr ruled)
      · have single : '\n' ∉ e.text ++ rowRest (join es) :=
          List.not_mem_append several (lineFeed_not_mem_rowRest _)
        rw [List.splitOn_eq_singleton single, append_join several]
        exact ih shaped _ (.inr (ruled.append several))
    | other role _ uncommented flat =>
      rw [List.append_nil] at uncommented
      simp only [openRows, role, List.nil_append]
      rw [append_join flat]
      exact ih shaped _ (.inr ((pending.uncommented uncommented).append flat))

end Element

structure OwnComment where
  before : List Char
  text : List Char
  behind : List Char

/-- If the comment is a directive, its row has nothing else but byte order marks and white space in
front of it, and white space behind it. -/
def OwnComment.Alone (own : OwnComment) : Prop :=
  FileDirective.isDirective (own.text ++ own.behind) = true →
    FileDirective.opens own.before = true ∧ own.behind.all Text.isBlank = true

namespace OwnComment

open Text FileDirective

instance (own : OwnComment) : Decidable own.Alone :=
  inferInstanceAs (Decidable (_ → _ ∧ _))

variable {own : OwnComment}

theorem Alone.not_isDirective (alone : own.Alone) (single : '\n' ∉ own.text ++ own.behind)
    (closed : opens own.before = false) : isDirective own.text = false := by
  by_contra directive
  have directive : isDirective own.text = true := by simpa using directive
  rw [(alone (isDirective_append single directive)).1] at closed
  cases closed

theorem Alone.row (alone : own.Alone) (single : '\n' ∉ own.text ++ own.behind)
    (slash : own.text.head? = some '/') (open_ : opens own.before = true) :
    isDirective (withoutMarks (own.before ++ own.text ++ own.behind)) = isDirective own.text ∧
      (isDirective own.text = true →
        parse (withoutMarks (own.before ++ own.text ++ own.behind)) = parse own.text) := by
  have row_eq : text? (withoutMarks (own.before ++ own.text ++ own.behind)) =
      text? (own.text ++ own.behind) := by
    obtain ⟨more, text_eq⟩ := List.head?_eq_some_iff.mp slash
    rw [List.append_assoc, text_eq, List.cons_append]
    exact text?_of_opens open_ (by decide) _
  cases directive : isDirective (own.text ++ own.behind) with
  | true =>
    have blank := List.all_eq_true.mp (alone directive).2
    rw [text?_append_blank own.text blank] at row_eq
    refine ⟨by rw [isDirective, isDirective, row_eq], fun _ => ?_⟩
    rw [parse, parse, row_eq]
  | false =>
    have none : isDirective own.text = false := by
      by_contra some
      rw [isDirective_append single (by simpa using some)] at directive
      cases directive
    rw [isDirective, row_eq, none]
    exact ⟨directive, fun some => by cases some⟩

end OwnComment

namespace Element

open Text FileDirective

/-- Whether only white space stands on the line so far. Any line break ends a line. -/
def freshAfter (fresh : Bool) (e : Element) : Bool :=
  match e.role with
  | .lineEnd | .dead => true
  | .space => fresh
  | _ => false

def ownComments (fresh : Bool) (passed : List Char) : List Element → List OwnComment
  | [] => []
  | e :: es =>
      (match e.role with
        | .comment => if fresh then [⟨lastRow passed, e.text, rowRest (join es)⟩] else []
        | _ => []) ++ ownComments (e.freshAfter fresh) (passed ++ e.text) es

/-- No row inside of the element is a directive. -/
def Quiet (e : Element) : Prop :=
  e.role = .enclosed →
    ∀ row ∈ (Text.splitAt '\n' e.text).tail, isDirective (withoutMarks row) = false

instance (e : Element) : Decidable e.Quiet :=
  inferInstanceAs (Decidable (_ → ∀ row ∈ (Text.splitAt '\n' e.text).tail, _))

def firstDirective (owns : List OwnComment) : Option Overrides :=
  ((owns.map (·.text)).find? isDirective).bind parse

theorem firstDirective_cons (own : OwnComment) (owns : List OwnComment) :
    firstDirective (own :: owns) =
      if isDirective own.text = true then parse own.text else firstDirective owns := by
  cases directive : isDirective own.text <;> simp [firstDirective, directive]

variable {e : Element}

theorem Quiet.inner (quiet : e.Quiet) (role : e.role = .enclosed) {front : List Char} {stop : Char}
    {back : List Char} (closed : e.text = front ++ stop :: back) (solid : isVoid stop = false)
    (stops : inMarker stop = false) (single : '\n' ∉ back) (s : List Char) :
    ∀ row ∈ (Text.splitAt '\n' (e.text ++ rowRest s)).tail,
      isDirective (withoutMarks row) = false := by
  have quiet := quiet role
  simp only [Text.splitAt_eq] at quiet ⊢
  by_cases several : '\n' ∈ e.text
  · obtain ⟨first, later, text_eq, flat⟩ := List.eq_append_cons_of_mem several
    rw [text_eq, List.splitOn_append_cons_self_of_not_mem flat, List.tail_cons,
      ← later.append_nil, splitOn_append_row later (by simp), List.append_nil] at quiet
    rw [text_eq, List.append_assoc, List.cons_append,
      List.splitOn_append_cons_self_of_not_mem flat, List.tail_cons,
      splitOn_append_row later (lineFeed_not_mem_rowRest s)]
    obtain ⟨earlier, last⟩ := List.forall_mem_append.mp quiet
    refine List.forall_mem_append.mpr ⟨earlier, ?_⟩
    simp only [List.mem_singleton, forall_eq] at last ⊢
    -- the closing character of the element stands on its last row, and in no marker
    have row_eq : lastRow later = lastRow front ++ stop :: back := by
      rw [← lastRow_append_lineFeed first, ← text_eq, closed, lastRow_append]
      simp [single, (ne_lineFeed_of_solid solid).symm]
    have whole := lineFeed_not_mem_lastRow later
    rw [row_eq] at last whole ⊢
    have whole : '\n' ∉ lastRow front ++ stop :: back ++ rowRest s :=
      List.not_mem_append whole (lineFeed_not_mem_rowRest s)
    rwa [isDirective_row_of_stop whole solid stops]
  · have flat : '\n' ∉ e.text ++ rowRest s := by simp [several, lineFeed_not_mem_rowRest]
    simp [List.splitOn_eq_singleton flat]

theorem Shape.closes {rest : List Char} (shape : e.Shape rest) (passed : List Char)
    (space : e.role ≠ .space) (lineEnd : e.role ≠ .lineEnd) :
    opens (lastRow (passed ++ e.text)) = false := by
  cases shape with
  | space role => exact absurd role space
  | lineEnd role => exact absurd role lineEnd
  | comment role slash flat =>
    obtain ⟨more, text_eq⟩ := List.head?_eq_some_iff.mp slash
    rw [lastRow_append flat, text_eq, not_opens_append_cons _ (by decide)]
  | @enclosed role _ _ stop back closed solid _ single =>
    have single : '\n' ∉ stop :: back := by simp [single, (ne_lineFeed_of_solid solid).symm]
    rw [closed, ← List.append_assoc, lastRow_append single, not_opens_append_cons _ solid]
  | other role nonempty uncommented flat =>
    obtain ⟨c, more, text_eq⟩ := List.exists_cons_of_ne_nil nonempty
    obtain ⟨d, _, eq, solid⟩ := uncommented.solid
    rw [text_eq, List.cons_append, List.cons.injEq] at eq
    rw [lastRow_append flat, text_eq, eq.1, not_opens_append_cons _ solid]

theorem findIn_openRows_eq {es : List Element} (shaped : Shaped [] es) (passed : List Char)
    (fresh : Bool) (open_fresh : opens (lastRow passed) = true → fresh = true)
    (quiet : ∀ e ∈ es, e.Quiet) (alone : ∀ own ∈ ownComments fresh passed es, own.Alone) :
    findIn (openRows passed es) = firstDirective (ownComments fresh passed es) := by
  induction es generalizing passed fresh with
  | nil => rfl
  | cons e es ih =>
    obtain ⟨shape, shaped⟩ := shaped
    obtain ⟨quietHere, quiet⟩ := List.forall_mem_cons.mp quiet
    have closes := shape.closes passed
    cases shape with
    | space role spaces =>
      have flat : '\n' ∉ e.text := fun mem => absurd (spaces _ mem) (by decide)
      simp only [openRows, ownComments, freshAfter, role, List.nil_append] at alone ⊢
      apply ih shaped _ _ _ quiet alone
      rw [lastRow_append flat]
      exact fun open_ => open_fresh (opens_of_append open_)
    | lineEnd role ends =>
      simp only [openRows, ownComments, freshAfter, role, List.nil_append] at alone ⊢
      exact ih shaped _ true (fun _ => rfl) quiet alone
    | comment role slash flat =>
      have closes := closes (by simp [role]) (by simp [role])
      simp only [openRows, ownComments, freshAfter, role] at alone ⊢
      have single : '\n' ∉ e.text ++ rowRest (join es) :=
        List.not_mem_append flat (lineFeed_not_mem_rowRest _)
      have later := fun alone => ih shaped (passed ++ e.text) false (by simp [closes]) quiet alone
      cases open_ : opens (lastRow passed) with
      | true =>
        rw [open_fresh open_] at alone ⊢
        simp only [if_true, List.singleton_append, List.forall_mem_cons] at alone ⊢
        obtain ⟨directive_eq, parse_eq⟩ := alone.1.row single slash open_
        rw [firstDirective_cons, findIn, directive_eq, later alone.2]
        split
        · exact parse_eq ‹_›
        · rfl
      | false =>
        simp only [Bool.false_eq_true, if_false, List.nil_append]
        cases fresh with
        | true =>
          simp only [if_true, List.singleton_append, List.forall_mem_cons] at alone ⊢
          rw [firstDirective_cons, alone.1.not_isDirective single open_, later alone.2]
          rfl
        | false => exact later alone
    | enclosed role uncommented closed solid stops single =>
      have closes := closes (by simp [role]) (by simp [role])
      simp only [openRows, ownComments, freshAfter, role, List.nil_append] at alone ⊢
      have inner := quietHere.inner role closed solid stops single (join es)
      rw [findIn_append, if_neg (by simpa using inner)]
      exact ih shaped _ false (by simp [closes]) quiet alone
    | other role nonempty uncommented flat =>
      have closes := closes (by simp [role]) (by simp [role])
      simp only [openRows, ownComments, freshAfter, role, List.nil_append] at alone ⊢
      exact ih shaped _ false (by simp [closes]) quiet alone

end Element

namespace FileDirective

/-- In a source without dead branches, read as text or as bytes, the directive is the first one
among the rows that open with a line comment or start inside of a literal or a block comment. So it
is the first directive among the comments that have a line for themselves, as long as nothing inside
of a literal or a block comment reads like one, and such a comment has its row for itself, too. -/
theorem find_of_tokenize {source : List Char} {symbols : List String} {stream : TokenStream}
    (read : tokenize source symbols = .ok stream)
    (live : ∀ e ∈ stream.elements, e.role ≠ .dead) :
    findInBytes (encodeText source).data.toList = find source ∧
      find source = findIn (Element.openRows [] stream.elements) ∧
      ((∀ e ∈ stream.elements, e.Quiet) →
        (∀ own ∈ Element.ownComments true [] stream.elements, own.Alone) →
        find source = Element.firstDirective (Element.ownComments true [] stream.elements)) := by
  have run := Cursor.run_of_tokens read
  have shaped := run.shaped live
  have source_eq : source = Element.join stream.elements := run.text
  have rows : find source = findIn (Element.openRows [] stream.elements) := by
    have found := Element.findIn_openRows shaped [] (.inl rfl)
    rw [find, Text.splitAt_eq]
    nth_rewrite 1 [source_eq]
    exact found
  refine ⟨findInBytes_encodeText source, rows, ?_⟩
  intro quiet alone
  rw [rows]
  exact Element.findIn_openRows_eq shaped [] true (fun _ => rfl) quiet alone

/-- A byte order mark stands in front of the comment, and a literal goes over several rows. -/
theorem find_of_tokenize_marked :
    ∃ stream,
      tokenize
          "\ufeff// csorganize: --define X\r\nclass C \x7b string s = @\"\n x\n\"; \x7d\n".toList [] =
        .ok stream ∧
      (∀ e ∈ stream.elements, e.role ≠ .dead) ∧ (∀ e ∈ stream.elements, e.Quiet) ∧
      (∀ own ∈ Element.ownComments true [] stream.elements, own.Alone) ∧
      find "\ufeff// csorganize: --define X\r\nclass C \x7b string s = @\"\n x\n\"; \x7d\n".toList =
        some { definedSymbols := ["X"] } := by
  have known : ∃ stream ∈ (tokenize
      "\ufeff// csorganize: --define X\r\nclass C \x7b string s = @\"\n x\n\"; \x7d\n".toList
      []).toOption,
      (∀ e ∈ stream.elements, e.role ≠ .dead) ∧ (∀ e ∈ stream.elements, e.Quiet) ∧
      (∀ own ∈ Element.ownComments true [] stream.elements, own.Alone) ∧
      Element.firstDirective (Element.ownComments true [] stream.elements) =
        some { definedSymbols := ["X"] } := by
    decide +kernel
  obtain ⟨stream, read, live, quiet, alone, first⟩ := known
  have read := eq_ok_of_toOption read
  have found := (find_of_tokenize read live).2.2 quiet alone
  exact ⟨stream, read, live, quiet, alone, by rw [found, first]⟩

/-- A row inside of a block comment counts as well. -/
example : find "/*\n// csorganize: ignore\n*/\nclass C { }\n".toList = some { ignore := true } := by
  decide +kernel

end FileDirective

end CSharpTidy
