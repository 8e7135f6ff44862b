import CanonicalLR.CommandLine
import CanonicalLR.Proofs.Text.Split

/-!
Command lines written out, every option by its long name and with its value attached. Reading one gives
the options back, whatever lines they hold: no character of a value is taken for a part of an option.
-/

set_option autoImplicit false
set_option relaxedAutoImplicit false

namespace CanonicalLR.CommandLine

/-- The arguments that give lines to be answered. -/
def exprArguments (lines : List String) : List String := lines.map ("--expr=" ++ ·)

/-- A command line for options. -/
def Options.arguments (options : Options) : List String :=
  options.grammarPath.toList.map ("--grammar=" ++ ·) ++
    ((if options.noColor then ["--no-color"] else []) ++
      ((if options.quiet then ["--quiet"] else []) ++ exprArguments options.exprs))

namespace Reader

variable {options options' : Options} {rest : List String}

theorem arguments_cons {r r' : Reader} {text : String} (option : text ≠ "--")
    (taken : r.argument text.toList = .ok r') : r.arguments (text :: rest) = r'.arguments rest := by
  rw [arguments, if_neg (by simpa using option), taken]
  rfl

/-- What follows two dashes is a name up to the first equals sign, and the value behind it. -/
private theorem long_attached {name : List Char} {option : ValueOption} (value : List Char)
    (known : NamedOption.ofLongName? name = some (.value option)) (plain : '=' ∉ name)
    (recorded : options.record option (String.ofList value) = .ok options') :
    (⟨options, none⟩ : Reader).long (name ++ '=' :: value) = .ok ⟨options', none⟩ := by
  have before : ∀ c ∈ name, (c != '=') = true := fun c mem => by
    simp only [bne_iff_ne, ne_eq]
    rintro rfl
    exact plain mem
  have closes : ∀ c ∈ ('=' :: value).head?, (c != '=') = false := by simp
  obtain ⟨cut, behind⟩ := Text.span_append before closes
  simp only [long, cut, behind, known]
  change (options.record option (String.ofList value)).bind _ = _
  rw [recorded]
  rfl

/-- An argument with a value attached is recorded at once. -/
private theorem arguments_attached {mark : String} (name : List Char) {option : ValueOption}
    {value : String} (spelled : mark.toList = '-' :: '-' :: (name ++ ['=']))
    (known : NamedOption.ofLongName? name = some (.value option)) (plain : '=' ∉ name)
    (recorded : options.record option value = .ok options') :
    (⟨options, none⟩ : Reader).arguments ((mark ++ value) :: rest) =
      (⟨options', none⟩ : Reader).arguments rest := by
  have text : (mark ++ value).toList = '-' :: '-' :: (name ++ '=' :: value.toList) := by
    rw [String.toList_append, spelled]
    simp
  refine arguments_cons (fun same => ?_) ?_
  · have short := congrArg String.toList same
    rw [text] at short
    simp at short
  · rw [text]
    refine long_attached value.toList known plain ?_
    rwa [String.ofList_toList]

private theorem arguments_flags (noColor quiet : Bool) (path : Option String) :
    (⟨{ Options.blank with grammarPath := path }, none⟩ : Reader).arguments
        ((if noColor then ["--no-color"] else []) ++ ((if quiet then ["--quiet"] else []) ++ rest)) =
      (⟨⟨path, [], noColor, quiet⟩, none⟩ : Reader).arguments rest := by
  cases noColor with
  | false =>
    cases quiet with
    | false => rfl
    | true => exact arguments_cons (by decide) rfl
  | true =>
    refine (arguments_cons (by decide) rfl).trans ?_
    cases quiet with
    | false => rfl
    | true => exact arguments_cons (by decide) rfl

private theorem arguments_exprs (lines : List String) :
    (⟨options, none⟩ : Reader).arguments (exprArguments lines) =
      .ok { options with exprs := options.exprs ++ lines } := by
  induction lines generalizing options with
  | nil =>
    rw [List.append_nil]
    rfl
  | cons line lines ih =>
    have recorded : options.record .expr line =
        .ok { options with exprs := options.exprs ++ [line] } := rfl
    rw [exprArguments, List.map_cons,
      arguments_attached "expr".toList rfl (by decide) (by decide) recorded]
    refine ih.trans ?_
    rw [List.append_assoc, List.singleton_append]

end Reader

/-- A command line for options is read as these options. -/
theorem read_arguments {options : Options} (named : options.grammarPath ≠ some "") :
    read options.arguments = .ok options := by
  obtain ⟨path, lines, noColor, quiet⟩ := options
  have behind_path : (⟨{ Options.blank with grammarPath := path }, none⟩ : Reader).arguments
      ((if noColor then ["--no-color"] else []) ++
        ((if quiet then ["--quiet"] else []) ++ exprArguments lines)) =
      .ok ⟨path, lines, noColor, quiet⟩ :=
    (Reader.arguments_flags noColor quiet path).trans (Reader.arguments_exprs lines)
  cases path with
  | none => exact behind_path
  | some path =>
    have recorded : Options.blank.record .grammar path =
        .ok { Options.blank with grammarPath := some path } := by
      have nonempty : path ≠ "" := fun same => named (congrArg some same)
      simp [Options.record, Options.blank, nonempty]
    exact (Reader.arguments_attached "grammar".toList rfl (by decide) (by decide)
      recorded).trans behind_path

example : read ["--quiet", "--expr=-1", "--expr=--expr=2"] =
    .ok ⟨none, ["-1", "--expr=2"], false, true⟩ := rfl

end CanonicalLR.CommandLine
