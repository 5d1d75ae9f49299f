import CSharpTidy.Proofs.TextPieces

/- Line terminators of a text. Where a text has one kind of them only, so have its pieces, however
   they are put together: a carriage return and a line feed that meet at a seam are two kinds. -/
namespace CSharpTidy

def terminators : List Char → List String
  | [] => []
  | '\r' :: '\n' :: rest => "\r\n" :: terminators rest
  | '\r' :: rest => "\r" :: terminators rest
  | '\n' :: rest => "\n" :: terminators rest
  | _ :: rest => terminators rest

variable {s t : List Char} {T : String}

theorem terminators_append (whole : WholeBreaks s t) :
    terminators (s ++ t) = terminators s ++ terminators t := by
  have behind : ∀ {c : Char} {rest : List Char},
      WholeBreaks (c :: rest) t → WholeBreaks rest t := by
    intro c rest known last
    refine known ?_
    rw [List.getLast?_cons, last]
    rfl
  fun_induction terminators s with
  | case1 => rfl
  | case2 rest ih => simp [terminators, ih (behind (behind whole))]
  | case3 rest lone ih =>
    have apart : ∀ more, rest ++ t ≠ '\n' :: more := by
      intro more joined
      cases rest with
      | nil => exact whole rfl (by rw [← List.nil_append t, joined]; rfl)
      | cons c rest =>
        obtain ⟨rfl, -⟩ := List.cons.inj joined
        exact lone rest rfl
    rw [List.cons_append, terminators.eq_3 _ apart, ih (behind whole), List.cons_append]
  | case4 rest ih => simp [terminators, ih (behind whole)]
  | case5 c rest _ carriage feed ih =>
    rw [List.cons_append, terminators.eq_5 _ _ (fun _ ret _ => carriage ret) carriage feed,
      ih (behind whole)]

theorem mem_terminators_of_head (h : t.head? = some '\n') : "\n" ∈ terminators t := by
  obtain ⟨rest, rfl⟩ : ∃ rest, t = '\n' :: rest := by
    cases t with
    | nil => cases h
    | cons c rest => exact ⟨rest, by simpa using h⟩
  simp [terminators]

theorem mem_terminators_of_last (h : s.getLast? = some '\r') : "\r" ∈ terminators s := by
  obtain ⟨front, rfl⟩ : ∃ front, s = front ++ ['\r'] := List.getLast?_eq_some_iff.mp h
  rw [terminators_append (by simp [WholeBreaks])]
  simp [terminators]

theorem terminators_of_isTerminator (h : IsTerminator T) : terminators T.toList = [T] := by
  rcases h with rfl | rfl | rfl <;> rfl

theorem LineEnding.firstTerminator_eq (s : List Char) :
    firstTerminator s = (terminators s).head?.getD "\n" := by
  fun_induction firstTerminator s with
  | case1 => rfl
  | case2 => rfl
  | case3 rest lone => rw [terminators.eq_3 _ (by simpa using lone)]; rfl
  | case4 => rfl
  | case5 c rest _ carriage feed ih =>
    rw [ih, terminators.eq_5 _ _ (fun _ ret _ => carriage ret) carriage feed]

def Uniform (T : String) (s : List Char) : Prop :=
  ∀ t ∈ terminators s, t = T

theorem Uniform.piecewise (T : String) : Piecewise (Uniform T) where
  nil := by simp [Uniform, terminators]
  append := by
    intro s t first second
    have whole : WholeBreaks s t := by
      intro last head
      have lone := first _ (mem_terminators_of_last last)
      have lineFeed := second _ (mem_terminators_of_head head)
      exact absurd (lone.trans lineFeed.symm) (by decide)
    unfold Uniform
    rw [terminators_append whole]
    exact List.forall_mem_append.mpr ⟨first, second⟩
  split := by
    intro s t whole both
    unfold Uniform at both
    rw [terminators_append whole] at both
    exact List.forall_mem_append.mp both

theorem IsTerminator.uniform (h : IsTerminator T) : Uniform T T.toList := by
  simp [Uniform, terminators_of_isTerminator h]

/-- Where a text keeps to one terminator, so does what it is organized to. -/
theorem organize_uniform {options : Options} {source out : List Char} {T : String}
    (auto : options.lineEnding = .auto) (uniform : ∀ t ∈ terminators source, t = T)
    (unbroken : terminators source = [] → T = "\n") (h : organize options source = .ok out) :
    (∀ t ∈ terminators out, t = T) ∧ T.toList <:+ out := by
  have ending : options.lineEnding.resolve source = T := by
    rw [auto, LineEnding.resolve, LineEnding.firstTerminator_eq]
    cases found : terminators source with
    | nil => exact (unbroken found).symm
    | cons t rest => exact uniform t (by simp [found])
  have terminator : IsTerminator T := ending ▸ options.lineEnding.resolve_isTerminator source
  cases read : SourceFile.parse source options.definedSymbols with
  | error e => simp [organize, read] at h
  | ok file =>
    rw [organize_of_parse read, ending, ← SourceFile.tidied] at h
    cases h
    have pieces := Uniform.piecewise T
    have known : Uniform T source := uniform
    rw [(SourceFile.parse_mark read).1] at known
    obtain ⟨mark, body⟩ := pieces.split (.mark file _) known
    have text := pieces.tidied (SourceFile.parse_texts pieces read body) options.standardPrefixes
      terminator.uniform
    exact ⟨pieces.append (pieces.append mark text) terminator.uniform, List.suffix_append ..⟩

theorem organize_uniform_crlf :
    let source := ("using B;\r\n\r\n\r\n/* a\r\n b */ class C \x7b\r\n" ++
      "#if X\r\n  dead\r\n#endif\r\n string s = @\"\r\n\"; \x7d").toList
    ∃ out, organize {} source = .ok out ∧
      terminators source = List.replicate 9 "\r\n" ∧ terminators out = List.replicate 10 "\r\n" ∧
      (∀ t ∈ terminators out, t = "\r\n") ∧ "\r\n".toList <:+ out := by
  intro source
  have broken : terminators source = List.replicate 9 "\r\n" := by decide +kernel
  have run : (organize {} source).toOption.map terminators = some (List.replicate 10 "\r\n") := by
    decide +kernel
  obtain ⟨out, found, kept⟩ := Option.map_eq_some_iff.mp run
  have organized := eq_ok_of_toOption found
  exact ⟨out, organized, broken, kept, organize_uniform rfl
    (fun t mem => List.eq_of_mem_replicate (broken ▸ mem)) (by simp [broken]) organized⟩

end CSharpTidy
