import ProtoScript.Proofs.Outcome

/-! # Stems of file names

The stem of a path is found from its last component. Directories in front of the component and
slashes and dots behind it do not count. The stem is the component up to its last dot, or all of it
if there is no dot behind its first character. Generated files are named after the stem.
-/

namespace ProtoScript

namespace Path

variable {path name stem : List Char}

theorem split_eq_splitOn (separator : Char) (text : List Char) :
    split separator text = text.splitOn separator := by
  induction text with
  | nil => rfl
  | cons c rest ih =>
    rw [split, List.splitOn_cons_eq_if_modifyHead, ih]
    by_cases h : c = separator
    · simp [h]
    · have hb : (c == separator) = false := beq_eq_false_iff_ne.mpr h
      rw [if_neg h, hb]
      cases hs : rest.splitOn separator with
      | nil => exact absurd hs (List.splitOn_ne_nil _ _)
      | cons first others => rfl

theorem components_append (front back : List Char) :
    components (front ++ '/' :: back) = components front ++ components back := by
  unfold components
  rw [split_eq_splitOn, split_eq_splitOn, split_eq_splitOn, List.splitOn_append_cons_self,
    List.filter_append]

theorem components_append_join {pieces : List String}
    (h : ∀ piece ∈ pieces, piece = "/" ∨ piece = "/.") (path : List Char) :
    components (path ++ (String.join pieces).toList) = components path := by
  induction pieces generalizing path with
  | nil => simp
  | cons piece pieces ih =>
    obtain ⟨hp, hr⟩ := List.forall_mem_cons.mp h
    rw [String.join_cons, String.toList_append, ← List.append_assoc, ih hr]
    rcases hp with rfl | rfl
    · exact (components_append path []).trans (List.append_nil _)
    · exact (components_append path ['.']).trans (List.append_nil _)

/-- A text that can be the last component of a path and that names a file. -/
structure IsFileName (name : List Char) : Prop where
  ne_nil : name ≠ []
  no_slash : '/' ∉ name
  ne_current : name ≠ ['.']
  ne_parent : name ≠ ['.', '.']

theorem IsFileName.components_eq (h : IsFileName name) : components name = [name] := by
  unfold components
  rw [split_eq_splitOn, List.splitOn_eq_singleton h.no_slash]
  simp [h.ne_nil, h.ne_current]

theorem IsFileName.fileName?_eq (h : IsFileName name) {front : List (List Char)}
    (hp : components path = front ++ [name]) : fileName? path = some name := by
  unfold fileName?
  rw [hp, List.getLast?_concat, Option.filter_some]
  simp [h.ne_parent]

theorem not_mem_of_beforeLastDot? (h : beforeLastDot? name = none) : '.' ∉ name := by
  fun_induction beforeLastDot? name with
  | case1 => exact List.not_mem_nil
  | case2 => cases h
  | case3 => cases h
  | case4 c rest hr hc ih => simp [Ne.symm hc, ih hr]

theorem exists_of_beforeLastDot? (h : beforeLastDot? name = some stem) :
    ∃ extension, '.' ∉ extension ∧ name = stem ++ '.' :: extension := by
  fun_induction beforeLastDot? name generalizing stem with
  | case1 => cases h
  | case2 c rest inner hr ih =>
    cases h
    obtain ⟨extension, he, rfl⟩ := ih hr
    exact ⟨extension, he, rfl⟩
  | case3 rest hr ih =>
    cases h
    exact ⟨rest, not_mem_of_beforeLastDot? hr, rfl⟩
  | case4 => cases h

theorem withoutExtension_cases (name : List Char) :
    ('.' ∉ name.tail ∧ withoutExtension name = name) ∨
      ('.' ∈ name.tail ∧ withoutExtension name ≠ [] ∧
        ∃ extension, '.' ∉ extension ∧ name = withoutExtension name ++ '.' :: extension) := by
  cases hb : beforeLastDot? name with
  | none =>
    have hn := not_mem_of_beforeLastDot? hb
    refine .inl ⟨fun h => hn (List.mem_of_mem_tail h), ?_⟩
    rw [withoutExtension, hb]
  | some stem =>
    obtain ⟨extension, he, hn⟩ := exists_of_beforeLastDot? hb
    cases stem with
    | nil =>
      refine .inl ⟨?_, ?_⟩
      · rw [hn]
        exact he
      · rw [withoutExtension, hb]
    | cons c stem =>
      have hw : withoutExtension name = c :: stem := by rw [withoutExtension, hb]
      refine .inr ⟨?_, ?_, extension, he, ?_⟩
      · simp [hn]
      · simp [hw]
      · rw [hw]
        exact hn

theorem withoutExtension_prefix (name : List Char) : withoutExtension name <+: name := by
  rcases withoutExtension_cases name with ⟨_, h⟩ | ⟨_, _, extension, _, h⟩
  · exact ⟨[], by rw [h, List.append_nil]⟩
  · exact ⟨_, h.symm⟩

theorem withoutExtension_ne_nil (h : name ≠ []) : withoutExtension name ≠ [] := by
  rcases withoutExtension_cases name with ⟨_, hw⟩ | ⟨_, hw, _⟩
  · rwa [hw]
  · exact hw

theorem IsFileName.toList_stem (h : IsFileName name) {path : String} {front : List (List Char)}
    (hp : components path.toList = front ++ [name]) :
    (Path.stem path).toList = withoutExtension name := by
  rw [Path.stem, h.fileName?_eq hp, String.toList_ofList]

variable {component stem : String}

theorem eq_of_toList_eq_withoutExtension (h : stem.toList = withoutExtension component.toList)
    (hd : '.' ∉ component.toList.tail) : stem = component := by
  rcases withoutExtension_cases component.toList with ⟨_, hw⟩ | ⟨hm, _⟩
  · exact String.ext (h.trans hw)
  · exact absurd hm hd

theorem exists_extension_of_toList_eq (h : stem.toList = withoutExtension component.toList)
    (hd : '.' ∈ component.toList.tail) :
    ∃ extension, '.' ∉ extension.toList ∧ component = stem ++ "." ++ extension := by
  rcases withoutExtension_cases component.toList with ⟨hm, _⟩ | ⟨_, _, extension, hx, hw⟩
  · exact absurd hd hm
  · refine ⟨String.ofList extension, ?_, String.ext ?_⟩
    · rwa [String.toList_ofList]
    · rw [hw, ← h]
      simp

end Path

namespace File

/-- The stem of a file name depends on the last component alone, and so does the name of the file
that is generated. The stem has no slash and is not empty. It is the component itself if no dot
stands behind the first character, and otherwise the component up to its last dot. -/
theorem stem_of_last_component (directory component : String) (pieces : List String)
    (hc : component ≠ "") (hs : '/' ∉ component.toList) (hd : component ≠ ".")
    (hp : component ≠ "..") (ht : ∀ piece ∈ pieces, piece = "/" ∨ piece = "/.")
    (file other : File) (hf : file.name = directory ++ "/" ++ component ++ String.join pieces)
    (ho : other.name = component) :
    file.stem = other.stem ∧ '/' ∉ other.stem.toList ∧ other.stem ≠ "" ∧
      ('.' ∉ component.toList.tail → other.stem = component) ∧
      ('.' ∈ component.toList.tail →
        ∃ extension, '.' ∉ extension.toList ∧ component = other.stem ++ "." ++ extension) ∧
      ∀ (compiler : Compiler) (output : Output), compiler.compile file = .ok output →
        output.files.map (·.name) = [other.stem ++ file.suffix compiler.config.defaultSuffix] := by
  have hn : Path.IsFileName component.toList := by
    refine ⟨mt String.toList_eq_nil_iff.mp hc, hs, ?_, ?_⟩
    · exact fun h => hd (String.ext h)
    · exact fun h => hp (String.ext h)
  have hk : Path.components file.name.toList =
      Path.components directory.toList ++ [component.toList] := by
    have hj : (directory ++ "/" ++ component).toList =
        directory.toList ++ '/' :: component.toList := by simp
    rw [hf, String.toList_append, Path.components_append_join ht, hj, Path.components_append,
      hn.components_eq]
  have hk' : Path.components other.name.toList = [] ++ [component.toList] := by
    rw [ho, hn.components_eq]
    rfl
  have hw : other.stem.toList = Path.withoutExtension component.toList := hn.toList_stem hk'
  have hw' : file.stem = other.stem := String.ext ((hn.toList_stem hk).trans hw.symm)
  refine ⟨hw', ?_, ?_, Path.eq_of_toList_eq_withoutExtension hw,
    Path.exists_extension_of_toList_eq hw, ?_⟩
  · rw [hw]
    exact fun h => hs ((Path.withoutExtension_prefix _).subset h)
  · intro h
    exact Path.withoutExtension_ne_nil hn.ne_nil (hw.symm.trans (String.toList_eq_nil_iff.mpr h))
  · intro compiler output h
    obtain ⟨_, rfl⟩ := Compiler.eq_outputOf_of_compile_eq_ok h
    rw [← hw']
    rfl

/-- A file whose path has empty components and those of the current and the parent directory, and
whose name starts with a dot. -/
def hiddenFile : File where
  name := "/a//../.b.c.proto//./"
  package := "p"

theorem stem_of_last_component_hiddenFile :
    let other : File := { hiddenFile with name := ".b.c.proto" }
    hiddenFile.name = "/a//.." ++ "/" ++ ".b.c.proto" ++ String.join ["/", "/.", "/"] ∧
      hiddenFile.stem = other.stem ∧
      (∃ extension, '.' ∉ extension.toList ∧ ".b.c.proto" = other.stem ++ "." ++ extension) ∧
      ∃ output, ({} : Compiler).compile hiddenFile = .ok output ∧
        output.files.map (·.name) = [".b.c.js"] := by
  intro other
  have hn : hiddenFile.name = "/a//.." ++ "/" ++ ".b.c.proto" ++ String.join ["/", "/.", "/"] := by
    decide +kernel
  obtain ⟨hs, _, _, _, hx, ho⟩ := stem_of_last_component "/a//.." ".b.c.proto" ["/", "/.", "/"]
    (by decide) (by decide) (by decide) (by decide) (by decide) hiddenFile other hn rfl
  obtain ⟨output, h⟩ := (Compiler.exists_compile_eq_ok_iff {} hiddenFile).mpr (by decide +kernel)
  refine ⟨hn, hs, hx (by decide), output, h, ?_⟩
  rw [ho {} output h]
  decide +kernel

end File

end ProtoScript
