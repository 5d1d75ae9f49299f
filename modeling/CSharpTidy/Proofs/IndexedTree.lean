import CSharpTidy.Proofs.IndexedDecl
import CSharpTidy.Proofs.UsingDeclarations

/- The tree of a file built by the indices of its tokens, container within container. Each
   declaration starts behind the last one and none reaches behind the end of the file; a run that
   stays where it is stops. No check fails, and the tree is the one that is read with the open
   containers on a stack and cut off the tokens. -/
namespace CSharpTidy.Indexed

open Checked Outline PlacedToken

/-- Goes on at `next`, which lies behind `pos` and not behind the end of the file. -/
def onwardTo {α : Type} (s : TokenStream) (pos next : Nat)
    (go : pos < next ∧ next ≤ s.tokens.length → Check α) : Check α :=
  if h : pos < next ∧ next ≤ s.tokens.length then go h else .error .stalled

def importDecl (s : TokenStream) (start : Nat) : Check (Decl × Nat) := do
  let stop ← findSemicolon s start
  let kind ← importKind s start
  let path ← importPath s start stop
  return (← declFrom s start stop (.imported kind) .unmarked ⟨path, 0, 0⟩, stop + 1)

def globalAttribute (s : TokenStream) (start : Nat) : Check (Decl × Nat) := do
  let stop ← matching s "[" "]" .closeBracket 0 start
  return (← declFrom s start stop (.other .globalAttribute) .unmarked {}, stop + 1)

def wholeEnd (s : TokenStream) (opened : Nat) : Check Nat := do
  if ← cellIs s opened "\x7b" then
    let close ← matching s "\x7b" "\x7d" .closeBrace 0 opened
    return if ← cellIs s (close + 1) ";" then close + 1 else close
  else return opened

def wholeType (s : TokenStream) (kind : DeclKind) (visibility : Visibility) (start head : Nat) :
    Check (Decl × Nat) := do
  let opened ← headerEnd s 0 head
  let stop ← wholeEnd s opened
  let key ← declaredKey s head
  return (← declFrom s start stop kind visibility key, stop + 1)

def plainMember (s : TokenStream) (scope : Scope) (visibility : Visibility) (start head : Nat) :
    Check (Decl × Nat) := do
  let stop ← memberEnd s 0 false head
  let own ← slice (s.tokens.map Token.toLexeme) head (stop + 1)
  let classified ← classify scope own
  return (← declFrom s start stop classified.1 visibility classified.2, stop + 1)

def closeContainer (s : TokenStream) (decl : Decl) (block : Block Decl) (close : Nat) :
    Check (Decl × Nat) := do
  let last := if ← cellIs s (close + 1) ";" then close + 1 else close
  let leading ← leadingAt s close
  let text ← join s close last
  let trailing ← trailingAt s last
  return ({ decl with
            block := some { block with closeLeading := leading, close := text },
            trailing := trailing }, last + 1)

mutual

/-- Adds the declarations from `pos` on to a block, up to the brace that closes it or to the end
of the file. -/
def blockBody (s : TokenStream) (scope : Scope) (block : Block Decl) (pos : Nat) :
    Check (Block Decl × Nat) :=
  match cell s pos with
  | .error stop => .error stop
  | .ok none =>
      if block.braced then .error (.fault (.endOfFile .closeBrace s.finish)) else .ok (block, pos)
  | .ok (some t) =>
      if t.is "\x7d" then
        if block.braced then .ok (block, pos)
        else .error (.fault (.unexpected t.text t.position))
      else do
        let preamble := scope != .typeBody && block.members.isEmpty
        if preamble && block.attributes.isEmpty && (← atImport s pos) then
          let read ← importDecl s pos
          onwardTo s pos read.2 fun _ =>
            blockBody s scope { block with imports := block.imports ++ [read.1] } read.2
        else if preamble && scope == .compilationUnit && (← atGlobalAttribute s pos) then
          let read ← globalAttribute s pos
          onwardTo s pos read.2 fun _ =>
            blockBody s scope { block with attributes := block.attributes ++ [read.1] } read.2
        else
          let read ← member s scope pos
          onwardTo s pos read.2 fun _ =>
            blockBody s scope { block with members := block.members ++ [read.1] } read.2
termination_by (s.tokens.length - pos, 2)
decreasing_by
  all_goals
    first
    | exact Prod.Lex.right _ (by decide)
    | exact Prod.Lex.left _ _ (by omega)

def member (s : TokenStream) (scope : Scope) (start : Nat) : Check (Decl × Nat) := do
  let first ← afterAttributes s start
  let head ← skip s Lexeme.isModifier s.tokens.length first
  let visibility := Visibility.ofModifiers (← texts s head first)
  if ← cellIs s head "namespace" then container s .namespaceBody visibility start head
  else if ← cellIs s head "class" then container s .classBody visibility start head
  else if ← cellIs s head "interface" then container s .interfaceBody visibility start head
  else if ← cellIs s head "enum" then wholeType s .enum visibility start head
  else if ← cellIs s head "struct" then wholeType s (.other .struct) visibility start head
  else if (← cellIs s head "record") && (← cellIsWord s (head + 1)) then
    wholeType s (.other .record) visibility start head
  else plainMember s scope visibility start head
termination_by (s.tokens.length - start, 1)

def container (s : TokenStream) (kind : ContainerKind) (visibility : Visibility)
    (start head : Nat) : Check (Decl × Nat) := do
  let opened ← headerEnd s 0 head
  let key ← declaredKey s head
  let decl ← declFrom s start opened (.container kind) visibility key
  let openTrailing ← trailingAt s opened
  if ← cellIs s opened ";" then
    if kind == .namespaceBody then
      onwardTo s start (opened + 1) fun _ => do
        let read ← blockBody s .namespaceBody { openTrailing := openTrailing } (opened + 1)
        return ({ decl with block := some read.1, trailing := [] }, read.2)
    else return (decl, opened + 1)
  else
    let scope := if kind == .namespaceBody then .namespaceBody else .typeBody
    onwardTo s start (opened + 1) fun _ => do
      let read ← blockBody s scope { braced := true, openTrailing := openTrailing } (opened + 1)
      closeContainer s decl read.1 read.2
termination_by (s.tokens.length - start, 0)

end

def detachFirst : List Decl → Check (Span × List Decl)
  | [] => .ok ([], [])
  | d :: rest =>
      match Header.split? d.leading with
      | none => .ok ([], d :: rest)
      | some n => do
          let header ← slice d.leading 0 n
          let left ← slice d.leading n d.leading.length
          return (header, { d with leading := left } :: rest)

def detach (root : Block Decl) : Check (Span × Block Decl) := do
  if !root.imports.isEmpty then
    let detached ← detachFirst root.imports
    return (detached.1, { root with imports := detached.2 })
  else if !root.attributes.isEmpty then
    let detached ← detachFirst root.attributes
    return (detached.1, { root with attributes := detached.2 })
  else
    let detached ← detachFirst root.members
    return (detached.1, { root with members := detached.2 })

def ofTokens (s : TokenStream) : Check SourceFile := do
  let read ← blockBody s .compilationUnit {} 0
  let closeLeading ← leadingAt s read.2
  let detached ← detach { read.1 with closeLeading := closeLeading }
  return ⟨false, detached.1, detached.2⟩

variable {s : TokenStream} {start stop head : Nat} {t : Token}

theorem length_ahead (s : TokenStream) (i : Nat) : (ahead s i).length = s.tokens.length - i := by
  rw [ahead, List.length_drop, List.length_map]

theorem extent_ahead (order : start ≤ stop) (inside : stop ≤ s.tokens.length) :
    extent (ahead s start) (ahead s stop) = stop - start := by
  rw [extent, length_ahead, length_ahead]
  omega

/-- A declaration read by indices is the one that an item read by suffixes stands for. -/
inductive ItemAgrees (s : TokenStream) (start : Nat) (role : Role) :
    Check (Decl × Nat) → Except Fault (Item × List Lexeme) → Prop
  | fault (f : Fault) : ItemAgrees s start role (.error (.fault (f.toError s))) (.error f)
  | decl {e : Entry} {d : Decl} {next : Nat} (order : start < next)
      (inside : next ≤ s.tokens.length)
      (built : e.build ((place s.tokens).drop start) = (d, (place s.tokens).drop next)) :
      ItemAgrees s start role (.ok (d, next)) (.ok (role.item e, ahead s next))

theorem build_own {e : Entry} (unbodied : e.body = none) (size : e.size = stop + 1 - start)
    (order : start ≤ stop) :
    e.build ((place s.tokens).drop start) =
      ((e.build ((place s.tokens).drop start)).1, (place s.tokens).drop (stop + 1)) := by
  have rest : (e.build ((place s.tokens).drop start)).2 = (place s.tokens).drop (stop + 1) := by
    rw [Entry.build_plain unbodied]
    simp only [List.drop_drop, size]
    congr 1
    omega
  exact Prod.ext rfl rest

theorem ItemAgrees.own (role : Role) (order : start ≤ stop)
    (inside : stop < s.tokens.length) (kind : DeclKind) (visibility : Visibility) (key : DeclKey) :
    ItemAgrees s start role
      (do return (← declFrom s start stop kind visibility key, stop + 1))
      (.ok (role.item ⟨kind, visibility, key, extent (ahead s start) (ahead s (stop + 1)), none⟩,
        ahead s (stop + 1))) := by
  rw [extent_ahead (by omega) inside, declFrom_eq order inside, ok_bind]
  exact .decl (Nat.lt_succ_of_le order) inside (build_own rfl rfl order)

theorem importDecl_agrees (s : TokenStream) (start : Nat) :
    ItemAgrees s start .imported (importDecl s start) (readImport (ahead s start)) := by
  have ends := findSemicolon_ends s start
  rw [importDecl, readImport]
  cases scan : afterSemicolon (ahead s start) with
  | error f =>
    rw [scan] at ends
    rw [ends]
    exact .fault f
  | ok rest =>
    rw [scan] at ends
    obtain ⟨stop, ran, order, inside, rfl⟩ := ends
    have path : ((ahead s start).take (stop + 1 - start - 1)).drop 1 =
        (s.tokens.map Token.toLexeme).extract (start + 1) stop := by
      rw [List.extract_eq_take_drop, ahead, List.drop_take, List.drop_drop]
      congr 1
      omega
    rw [ran, ok_bind, importKind_eq, ok_bind, importPath_eq s start (Nat.le_of_lt inside), ok_bind,
      ← path, ← extent_ahead (by omega) inside]
    exact .own .imported order inside _ _ _

theorem globalAttribute_agrees (here : s.tokens[start]? = some t) (opens : t.is "[") :
    ItemAgrees s start .attribute (globalAttribute s start)
      (readGlobalAttribute (ahead s start)) := by
  have group := matching_ends "]" .closeBracket here opens
  rw [globalAttribute, readGlobalAttribute, tail_ahead]
  cases scan : Lexeme.afterGroup "[" "]" 0 (ahead s (start + 1)) with
  | none =>
    rw [scan] at group
    rw [group]
    exact .fault (.endOfFile .closeBracket)
  | some rest =>
    rw [scan] at group
    obtain ⟨stop, ran, order, inside, rfl⟩ := group
    rw [ran, ok_bind]
    exact .own .attribute (by omega) inside _ _ _

theorem plainMember_agrees (regular : ∀ t ∈ s.tokens, t.toLexeme.Regular) (scope : Scope)
    (visibility : Visibility) (order : start ≤ head) :
    ItemAgrees s start .member (plainMember s scope visibility start head)
      (readPlainMember scope visibility (ahead s start) (ahead s head)) := by
  have ends := memberEnd_ends s 0 false head
  rw [plainMember, readPlainMember]
  cases scan : afterMember 0 false (ahead s head) with
  | error f =>
    rw [scan] at ends
    rw [ends]
    exact .fault f
  | ok rest =>
    rw [scan] at ends
    obtain ⟨stop, ran, after, inside, rfl⟩ := ends
    have own : (ahead s head).take (extent (ahead s head) (ahead s (stop + 1))) =
        (s.tokens.map Token.toLexeme).extract head (stop + 1) := by
      rw [extent_ahead (by omega) inside]
      rfl
    have regularOwn : ∀ l ∈ (s.tokens.map Token.toLexeme).extract head (stop + 1), l.Regular := by
      intro l mem
      obtain ⟨t, token, rfl⟩ := List.mem_map.mp (List.mem_of_mem_drop (List.mem_of_mem_take mem))
      exact regular t token
    rw [ran, ok_bind, slice_of_le (by omega) (by rwa [List.length_map]), ok_bind,
      classify_eq scope fun _ => regularOwn, ok_bind, ← own]
    exact .own .member (by omega) inside _ _ _

theorem wholeEnd_plain (here : s.tokens[start]? = some t) (plain : t.is "\x7b" = false) :
    wholeEnd s start = .ok start := by
  rw [wholeEnd, cellIs_eq, startsWith_ahead here, plain]
  rfl

theorem wholeEnd_braced (here : s.tokens[start]? = some t) (opens : t.is "\x7b") :
    Ends s start (wholeEnd s start)
      (match Lexeme.afterGroup "\x7b" "\x7d" 0 (ahead s (start + 1)) with
        | none => .error (.endOfFile .closeBrace)
        | some after => .ok (if Lexeme.startsWith after ";" then after.tail else after)) := by
  have group := matching_ends "\x7d" .closeBrace here opens
  rw [wholeEnd, cellIs_eq, startsWith_ahead here, opens, ok_bind, if_pos rfl]
  cases scan : Lexeme.afterGroup "\x7b" "\x7d" 0 (ahead s (start + 1)) with
  | none =>
    rw [scan] at group
    rw [group]
    rfl
  | some after =>
    rw [scan] at group
    obtain ⟨stop, ran, order, inside, rfl⟩ := group
    rw [ran, ok_bind, cellIs_eq, ok_bind]
    simp only [tail_ahead]
    split
    · rename_i semicolon
      exact ⟨stop + 1, rfl, by omega, lt_of_startsWith semicolon, rfl⟩
    · exact ⟨stop, rfl, by omega, inside, rfl⟩

theorem wholeType_agrees (here : s.tokens[head]? = some t) (order : start ≤ head)
    (kind : DeclKind) (visibility : Visibility) :
    ItemAgrees s start .member (wholeType s kind visibility start head)
      (readWholeType kind
        (if t.is "record" then recordKey (ahead s (head + 1))
          else Outline.declaredKey (ahead s (head + 1)))
        visibility (ahead s start) (ahead s head)) := by
  have ends := headerEnd_ends s 0 head
  rw [wholeType, readWholeType]
  cases scan : Outline.headerEnd 0 (ahead s head) with
  | error f =>
    rw [scan] at ends
    rw [ends]
    exact .fault f
  | ok found =>
    obtain ⟨l, rest⟩ := found
    rw [scan] at ends
    obtain ⟨opened, opener, ran, after, opens, rfl, rfl, isBrace, _⟩ := ends
    rw [ran, ok_bind, declaredKey_eq here]
    simp only
    cases brace : opener.text == "\x7b" with
    | false =>
      rw [wholeEnd_plain opens (isBrace.trans brace)]
      exact .own .member (by omega) (List.getElem?_eq_some_iff.mp opens).1 _ _ _
    | true =>
      have whole := wholeEnd_braced opens (isBrace.trans brace)
      rw [if_pos rfl]
      cases group : Lexeme.afterGroup "\x7b" "\x7d" 0 (ahead s (opened + 1)) with
      | none =>
        rw [group] at whole
        rw [whole]
        exact .fault _
      | some rest =>
        rw [group] at whole
        obtain ⟨stop, ended, further, inside, eq⟩ := whole
        rw [ended, ok_bind, ok_bind]
        simp only [eq]
        exact .own .member (by omega) inside _ _ _

end CSharpTidy.Indexed
