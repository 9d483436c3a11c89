import CallGraph.CommandLine
import CallGraph.Proofs.Call
import Mathlib.Data.List.TakeWhile

namespace CallGraph.CommandLine

/-- The arguments before the first one that ends the options. -/
def beforeEnd (args : List String) : List String := args.takeWhile (· != "--")

def behindEnd (args : List String) : List String := (args.dropWhile (· != "--")).tail

/-- An argument that is a value wherever it stands. -/
def IsValue (arg : String) : Prop := arg = "-" ∨ arg.toList.head? ≠ some '-'

instance (arg : String) : Decidable (IsValue arg) := inferInstanceAs (Decidable (_ ∨ _))

/-- An argument that asks for help or for the version: one of the two names, or letters behind a
single dash of which the first is one of the two letters. -/
def IsRequest (arg : String) : Prop :=
  arg = "--help" ∨ arg = "--version" ∨
    ∃ letters, arg.toList = '-' :: 'h' :: letters ∨ arg.toList = '-' :: 'V' :: letters

/-- At most two values, each of them right in its place. -/
def Valid : List String → Prop
  | [] => True
  | [root] => root ≠ ""
  | [root, name] => root ≠ "" ∧ (Language.ofName? name).isSome
  | _ => False

/-- The values are a root and the name of a language. -/
def Gives (values : List String) (a : Arguments) : Prop :=
  ∃ name, values = [a.root, name] ∧ a.root ≠ "" ∧ Language.ofName? name = some a.language

/-- The command lines that lead to a scan. -/
def Accepts (args : List String) (a : Arguments) : Prop :=
  (∀ arg ∈ beforeEnd args, IsValue arg) ∧ Gives (beforeEnd args ++ behindEnd args) a

/-- The command lines that ask for help or for the version before anything in them is wrong. -/
def Asks (args : List String) : Prop :=
  ∃ values request rest, beforeEnd args = values ++ request :: rest ∧ IsRequest request ∧
    (∀ v ∈ values, IsValue v) ∧ Valid values

theorem not_isValue_of_dash (arg : String) (c : Char) (cs : List Char)
    (h : arg.toList = '-' :: c :: cs) : ¬ IsValue arg := by
  rintro (rfl | hhead)
  · cases h
  · exact hhead (by rw [h]; rfl)

theorem IsRequest.not_isValue {arg : String} (h : IsRequest arg) : ¬ IsValue arg := by
  rcases h with rfl | rfl | ⟨letters, h | h⟩
  · exact not_isValue_of_dash _ '-' "help".toList rfl
  · exact not_isValue_of_dash _ '-' "version".toList rfl
  · exact not_isValue_of_dash arg 'h' letters h
  · exact not_isValue_of_dash arg 'V' letters h

theorem ofName?_eq_some_iff (name : String) (f : Flag) :
    Flag.ofName? name = some f ↔ name = f.name := by
  constructor
  · intro h
    have hname := List.find?_some h
    exact (beq_iff_eq.mp hname).symm
  · rintro rfl
    cases f <;> decide

theorem ofLetter?_eq_some_iff (c : Char) (f : Flag) : Flag.ofLetter? c = some f ↔ c = f.letter := by
  constructor
  · intro h
    have hletter := List.find?_some h
    exact (beq_iff_eq.mp hletter).symm
  · rintro rfl
    cases f <;> decide

theorem isRequest_name_iff (arg : String) (name : List Char) (h : arg.toList = '-' :: '-' :: name) :
    IsRequest arg ↔ ∃ f : Flag, name = f.name.toList := by
  have hlong : ∀ f : Flag, arg = f.option ↔ name = f.name.toList := by
    intro f
    rw [← String.toList_inj, h, Flag.option, String.toList_append]
    change '-' :: '-' :: name = '-' :: '-' :: f.name.toList ↔ _
    simp
  have hshort : ¬ ∃ letters, arg.toList = '-' :: 'h' :: letters ∨ arg.toList = '-' :: 'V' :: letters := by
    simp [h]
  constructor
  · rintro (hr | hr | hr)
    · exact ⟨.help, (hlong .help).mp hr⟩
    · exact ⟨.version, (hlong .version).mp hr⟩
    · exact absurd hr hshort
  · rintro ⟨f, hf⟩
    have harg := (hlong f).mpr hf
    cases f with
    | help => exact .inl harg
    | version => exact .inr (.inl harg)

theorem isRequest_letter_iff (arg : String) (letter : Char) (letters : List Char)
    (h : arg.toList = '-' :: letter :: letters) (hne : letter ≠ '-') :
    IsRequest arg ↔ ∃ f : Flag, letter = f.letter := by
  constructor
  · rintro (rfl | rfl | ⟨cs, hc | hc⟩)
    · exact absurd (List.cons.inj (List.cons.inj h).2).1.symm hne
    · exact absurd (List.cons.inj (List.cons.inj h).2).1.symm hne
    · rw [h] at hc
      exact ⟨.help, (List.cons.inj (List.cons.inj hc).2).1⟩
    · rw [h] at hc
      exact ⟨.version, (List.cons.inj (List.cons.inj hc).2).1⟩
  · rintro ⟨f, rfl⟩
    cases f with
    | help => exact .inr (.inr ⟨letters, .inl h⟩)
    | version => exact .inr (.inr ⟨letters, .inr h⟩)

theorem isValue_of_no_dash (arg : String)
    (h : ∀ c cs, arg.toList = '-' :: c :: cs → False) : IsValue arg := by
  by_cases hhead : arg.toList.head? = some '-'
  · left
    obtain ⟨cs, hcs⟩ := List.head?_eq_some_iff.mp hhead
    cases cs with
    | nil => exact String.toList_inj.mp hcs
    | cons c cs => exact (h c cs hcs).elim
  · exact .inr hhead

/-- How an argument reads, by its form. -/
theorem ofString_cases (arg : String) :
    (Argument.ofString arg = .value ∧ IsValue arg) ∨
    (Argument.ofString arg = .endOfOptions ∧ arg = "--") ∨
    (∃ f, Argument.ofString arg = .flag f ∧ IsRequest arg) ∨
    ((∃ f value, Argument.ofString arg = .attached f value) ∨
        ∃ option, Argument.ofString arg = .unknown option) ∧
      ¬ IsValue arg ∧ ¬ IsRequest arg := by
  rw [Argument.ofString]
  split
  · next h => exact .inr (.inl ⟨rfl, String.toList_inj.mp h⟩)
  · next name _ h =>
    have hvalue := not_isValue_of_dash arg _ _ h
    have hrequest := isRequest_name_iff arg name h
    have hplain : ∀ f : Flag, f.name.toList.takeWhile (· != '=') = f.name.toList ∧
        f.name.toList.dropWhile (· != '=') = [] := by
      intro f
      cases f <;> decide
    dsimp only
    split
    · next f hf hrest =>
      have hall := List.takeWhile_append_dropWhile (p := (· != '=')) (l := name)
      rw [hrest, List.append_nil] at hall
      rw [ofName?_eq_some_iff, hall] at hf
      refine .inr (.inr (.inl ⟨f, rfl, hrequest.mpr ⟨f, ?_⟩⟩))
      rw [← hf, String.toList_ofList]
    · next f c value hf hrest =>
      refine .inr (.inr (.inr ⟨.inl ⟨f, _, rfl⟩, hvalue, ?_⟩))
      rw [hrequest]
      rintro ⟨g, rfl⟩
      rw [(hplain g).2] at hrest
      cases hrest
    · next hf =>
      refine .inr (.inr (.inr ⟨.inr ⟨_, rfl⟩, hvalue, ?_⟩))
      rw [hrequest]
      rintro ⟨g, rfl⟩
      rw [(hplain g).1, String.ofList_toList, (ofName?_eq_some_iff g.name g).mpr rfl] at hf
      cases hf
  · next letter letters _ hname h =>
    have hvalue := not_isValue_of_dash arg _ _ h
    have hne : letter ≠ '-' := hname
    have hrequest := isRequest_letter_iff arg letter letters h hne
    split
    · next f hf =>
      exact .inr (.inr (.inl ⟨f, rfl, hrequest.mpr ⟨f, (ofLetter?_eq_some_iff letter f).mp hf⟩⟩))
    · next hf =>
      refine .inr (.inr (.inr ⟨.inr ⟨_, rfl⟩, hvalue, ?_⟩))
      rw [hrequest]
      rintro ⟨f, hletter⟩
      rw [(ofLetter?_eq_some_iff letter f).mpr hletter] at hf
      cases hf
  · next _ _ h => exact .inl ⟨rfl, isValue_of_no_dash arg h⟩

theorem not_isValue_end : ¬ IsValue "--" := not_isValue_of_dash _ '-' [] rfl

/-- The reading ends with a mistake. -/
def Refused {α : Type} (r : Except Stop α) : Prop := ∃ s, r = .error s ∧ s.exitCode = 2

theorem Refused.bind {α β : Type} {r : Except Stop α} (h : Refused r) (f : α → Except Stop β) :
    Refused (r >>= f) := by
  obtain ⟨s, rfl, hs⟩ := h
  exact ⟨s, rfl, hs⟩

/-- The values taken so far. The last one is still to be checked. -/
def Pending : List String → Prop
  | [] => True
  | [_] => True
  | [root, _] => root ≠ ""
  | _ => False

theorem Pending.of_append {values more : List String} (h : Pending (values ++ more)) :
    Pending values := by
  rcases values with _ | ⟨root, _ | ⟨name, _ | ⟨extra, values⟩⟩⟩
  · trivial
  · trivial
  · cases more with
    | nil => exact h
    | cons extra more => exact h.elim
  · exact h.elim

theorem Valid.pending {values : List String} (h : Valid values) : Pending values := by
  rcases values with _ | ⟨root, _ | ⟨name, _ | ⟨extra, values⟩⟩⟩
  · trivial
  · trivial
  · exact h.1
  · exact h.elim

theorem check_cases (values : List String) (h : Pending values) :
    (Valid values ∧ check values = .ok ()) ∨ (¬ Valid values ∧ Refused (check values)) := by
  rcases values with _ | ⟨root, _ | ⟨name, _ | ⟨extra, values⟩⟩⟩
  · exact .inl ⟨trivial, rfl⟩
  · by_cases hroot : root = ""
    · exact .inr ⟨fun hv => hv hroot, .emptyRoot, if_pos hroot, rfl⟩
    · exact .inl ⟨hroot, if_neg hroot⟩
  · cases hname : Language.ofName? name with
    | none =>
      exact .inr ⟨by simp [Valid, hname], .badLanguage name, by simp [check, hname], rfl⟩
    | some language => exact .inl ⟨⟨h, by simp [hname]⟩, by simp [check, hname]⟩
  · exact h.elim

theorem pending_concat (values : List String) (arg : String) :
    Pending (values ++ [arg]) ↔ values.length < 2 ∧ Valid values := by
  rcases values with _ | ⟨root, _ | ⟨name, values⟩⟩
  · simp [Pending, Valid]
  · simp [Pending, Valid]
  · rcases values with _ | ⟨extra, values⟩ <;> simp [Pending, Valid]

/-- A value is taken if those before it are right and there is room for it. -/
theorem takeValue_cases (values : List String) (ended : Bool) (arg : String) (h : Pending values) :
    (Pending (values ++ [arg]) ∧ takeValue ⟨values, ended⟩ arg = .ok ⟨values ++ [arg], ended⟩) ∨
    (¬ Pending (values ++ [arg]) ∧ Refused (takeValue ⟨values, ended⟩ arg)) := by
  rw [pending_concat]
  by_cases hroom : 2 ≤ values.length
  · refine .inr ⟨by omega, .extraValue arg, ?_, rfl⟩
    rw [takeValue, if_pos hroom]
    rfl
  · have htake : takeValue ⟨values, ended⟩ arg =
        check values >>= fun _ => .ok ⟨values ++ [arg], ended⟩ := by
      rw [takeValue, if_neg hroom]
      rfl
    rw [htake]
    rcases check_cases values h with ⟨hvalid, hc⟩ | ⟨hvalid, hc⟩
    · refine .inl ⟨⟨by omega, hvalid⟩, ?_⟩
      rw [hc]
      rfl
    · exact .inr ⟨fun hp => hvalid hp.2, hc.bind _⟩

theorem step_of_value (s : State) (arg : String) (h : s.optionsEnded = true ∨ IsValue arg) :
    step s arg = takeValue s arg := by
  rw [step]
  by_cases hend : s.optionsEnded = true
  · rw [if_pos hend]
  · have hvalue := h.resolve_left hend
    rw [if_neg hend]
    rcases ofString_cases arg with ⟨hc, -⟩ | ⟨-, rfl⟩ | ⟨f, -, hr⟩ | ⟨-, hv, -⟩
    · rw [hc]
    · exact absurd hvalue not_isValue_end
    · exact absurd hvalue hr.not_isValue
    · exact absurd hvalue hv

/-- Arguments that are values are taken as long as that many may be pending. -/
theorem foldlM_values (args values : List String) (ended : Bool)
    (hargs : ∀ arg ∈ args, ended = true ∨ IsValue arg) (h : Pending values) :
    (Pending (values ++ args) ∧
      args.foldlM step ⟨values, ended⟩ = .ok ⟨values ++ args, ended⟩) ∨
    (¬ Pending (values ++ args) ∧ Refused (args.foldlM step ⟨values, ended⟩)) := by
  induction args generalizing values with
  | nil => exact .inl ⟨by simpa using h, by rw [List.append_nil]; rfl⟩
  | cons arg args ih =>
    have hrest := fun v => ih v fun arg ha => hargs arg (by simp [ha])
    rw [List.foldlM_cons, step_of_value _ arg (hargs arg (by simp)), List.append_cons]
    rcases takeValue_cases values ended arg h with ⟨hp, ht⟩ | ⟨hp, ht⟩
    · rw [ht]
      exact hrest (values ++ [arg]) hp
    · exact .inr ⟨fun hall => hp hall.of_append, ht.bind _⟩

theorem split_end (args : List String) :
    (args = beforeEnd args ∧ behindEnd args = []) ∨ args = beforeEnd args ++ "--" :: behindEnd args := by
  have hall := List.takeWhile_append_dropWhile (p := (· != "--")) (l := args)
  have hhead := List.head?_dropWhile_not (· != "--") args
  rw [behindEnd]
  cases hrest : args.dropWhile (· != "--") with
  | nil =>
    rw [hrest, List.append_nil] at hall
    exact .inl ⟨hall.symm, rfl⟩
  | cons arg rest =>
    rw [hrest] at hall hhead
    obtain rfl : arg = "--" := by simpa using hhead
    exact .inr hall.symm

/-- Without an option in front of the end of the options, all arguments are values. -/
theorem foldlM_all_values (args : List String) (h : ∀ arg ∈ beforeEnd args, IsValue arg) :
    (Pending (beforeEnd args ++ behindEnd args) ∧ ∃ ended,
      args.foldlM step ⟨[], false⟩ = .ok ⟨beforeEnd args ++ behindEnd args, ended⟩) ∨
    (¬ Pending (beforeEnd args ++ behindEnd args) ∧ Refused (args.foldlM step ⟨[], false⟩)) := by
  have hfront := foldlM_values (beforeEnd args) [] false (fun arg ha => .inr (h arg ha)) trivial
  rw [List.nil_append] at hfront
  rcases split_end args with ⟨hargs, hnil⟩ | hargs
  · rw [hnil, List.append_nil]
    rw [← hargs] at hfront ⊢
    exact hfront.imp_left fun hf => ⟨hf.1, false, hf.2⟩
  · have hend : ∀ values, step ⟨values, false⟩ "--" = .ok ⟨values, true⟩ := fun _ => rfl
    rw [hargs, List.foldlM_append, ← hargs]
    rcases hfront with ⟨hp, hf⟩ | ⟨hp, hf⟩
    · rw [hf]
      have hback := foldlM_values (behindEnd args) (beforeEnd args) true (fun _ _ => .inl rfl) hp
      exact hback.imp_left fun hb => ⟨hb.1, true, hb.2⟩
    · exact .inr ⟨fun hall => hp hall.of_append, hf.bind _⟩

/-- The first option ends the reading. -/
theorem foldlM_option (values rest : List String) (arg : String) (hvalues : ∀ v ∈ values, IsValue v)
    (harg : ¬ IsValue arg) (hend : arg ≠ "--") :
    (IsRequest arg ∧ Valid values ∧
      ∃ f, (values ++ arg :: rest).foldlM step ⟨[], false⟩ = .error (.asked f)) ∨
    (¬ (IsRequest arg ∧ Valid values) ∧
      Refused ((values ++ arg :: rest).foldlM step ⟨[], false⟩)) := by
  have hfront := foldlM_values values [] false (fun v hv => .inr (hvalues v hv)) trivial
  rw [List.nil_append] at hfront
  rw [List.foldlM_append]
  rcases hfront with ⟨hp, hf⟩ | ⟨hp, hf⟩
  · rw [hf]
    change (_ ∧ _ ∧ ∃ f, (step ⟨values, false⟩ arg >>= fun s => rest.foldlM step s) = _) ∨
      (_ ∧ Refused (step ⟨values, false⟩ arg >>= fun s => rest.foldlM step s))
    rw [step, if_neg Bool.false_ne_true]
    rcases ofString_cases arg with ⟨-, hv⟩ | ⟨-, he⟩ | ⟨f, hc, hr⟩ | ⟨hc, -, hr⟩
    · exact absurd hv harg
    · exact absurd he hend
    · rw [hc]
      rcases check_cases values hp with ⟨hvalid, hcheck⟩ | ⟨hvalid, hcheck⟩
      · refine .inl ⟨hr, hvalid, f, ?_⟩
        rw [hcheck]
        rfl
      · exact .inr ⟨fun h => hvalid h.2, (hcheck.bind _).bind _⟩
    · refine .inr ⟨fun h => hr h.1, ?_⟩
      rcases hc with ⟨f, value, hc⟩ | ⟨option, hc⟩
      · rw [hc]
        exact ⟨_, rfl, rfl⟩
      · rw [hc]
        exact ⟨_, rfl, rfl⟩
  · exact .inr ⟨fun h => hp h.2.pending, hf.bind _⟩

theorem Gives.unique {values : List String} {a a' : Arguments} (h : Gives values a)
    (h' : Gives values a') : a = a' := by
  obtain ⟨name, rfl, -, hl⟩ := h
  obtain ⟨name', he, -, hl'⟩ := h'
  obtain ⟨hroot, hname⟩ : a.root = a'.root ∧ name = name' := by simpa using he
  rw [hname, hl'] at hl
  cases a
  cases a'
  simp_all

theorem Gives.pending {values : List String} {a : Arguments} (h : Gives values a) :
    Pending values := by
  obtain ⟨name, rfl, hroot, -⟩ := h
  exact hroot

/-- The end of the reading. -/
theorem parse_of_values (args values : List String) (ended : Bool) (hp : Pending values)
    (hf : args.foldlM step ⟨[], false⟩ = .ok ⟨values, ended⟩) :
    (∃ a, Gives values a ∧ parse args = .ok a) ∨
    ((∀ a, ¬ Gives values a) ∧ Refused (parse args)) := by
  rw [parse, hf]
  rcases values with _ | ⟨root, _ | ⟨name, _ | ⟨extra, values⟩⟩⟩
  · exact .inr ⟨by simp [Gives], _, rfl, rfl⟩
  · refine .inr ⟨by simp [Gives], ?_⟩
    change Refused (check [root] >>= fun _ => .error (.missing [.language]))
    rcases check_cases [root] hp with ⟨-, hc⟩ | ⟨-, hc⟩
    · rw [hc]
      exact ⟨_, rfl, rfl⟩
    · exact hc.bind _
  · rcases check_cases [root, name] hp with ⟨⟨hroot, hsome⟩, hc⟩ | ⟨hinvalid, hc⟩
    · obtain ⟨language, hl⟩ := Option.isSome_iff_exists.mp hsome
      refine .inl ⟨⟨root, language⟩, ⟨name, rfl, hroot, hl⟩, ?_⟩
      change (check [root, name] >>= _) = _
      rw [hc]
      simp [bind, Except.bind, pure, Except.pure, hl]
    · refine .inr ⟨?_, hc.bind _⟩
      rintro a ⟨name', he, hroot, hl⟩
      obtain ⟨rfl, rfl⟩ : root = a.root ∧ name = name' := by simpa using he
      exact hinvalid ⟨hroot, by rw [hl]; rfl⟩
  · exact hp.elim

/-- Command lines without an option: they lead to a scan or end with a mistake. -/
theorem parse_without_options (args : List String) (h : ∀ arg ∈ beforeEnd args, IsValue arg) :
    (∃ a, Accepts args a ∧ parse args = .ok a) ∨ ((∀ a, ¬ Accepts args a) ∧ Refused (parse args)) := by
  rcases foldlM_all_values args h with ⟨hp, ended, hf⟩ | ⟨hp, hf⟩
  · rcases parse_of_values args _ ended hp hf with ⟨a, ha, hparse⟩ | ⟨ha, hparse⟩
    · exact .inl ⟨a, ⟨h, ha⟩, hparse⟩
    · exact .inr ⟨fun a hacc => ha a hacc.2, hparse⟩
  · exact .inr ⟨fun a hacc => hp hacc.2.pending, hf.bind _⟩

theorem not_asks_of_values (args : List String) (h : ∀ arg ∈ beforeEnd args, IsValue arg) :
    ¬ Asks args := by
  rintro ⟨values, request, rest, hargs, hrequest, -, -⟩
  exact hrequest.not_isValue (h request (by simp [hargs]))

/-- The values in front of the first option, the option, and what follows it. -/
theorem exists_option (args : List String) (h : ¬ ∀ arg ∈ beforeEnd args, IsValue arg) :
    ∃ values arg rest behind, beforeEnd args = values ++ arg :: rest ∧
      args = values ++ arg :: behind ∧ (∀ v ∈ values, IsValue v) ∧ ¬ IsValue arg ∧ arg ≠ "--" := by
  have hsome : ((beforeEnd args).find? fun arg => !decide (IsValue arg)).isSome := by
    rw [List.find?_isSome]
    simpa using h
  obtain ⟨arg, hfind⟩ := Option.isSome_iff_exists.mp hsome
  obtain ⟨harg, values, rest, hargs, hvalues⟩ := List.find?_eq_some_iff_append.mp hfind
  have hmem : arg ∈ beforeEnd args := by simp [hargs]
  have hend : arg ≠ "--" := by simpa using List.mem_takeWhile_imp hmem
  have hall := List.takeWhile_append_dropWhile (p := (· != "--")) (l := args)
  rw [← beforeEnd, hargs, List.append_assoc] at hall
  exact ⟨values, arg, rest, _, hargs, hall.symm, by simpa using hvalues, by simpa using harg, hend⟩

theorem asks_iff (args values rest : List String) (arg : String)
    (hargs : beforeEnd args = values ++ arg :: rest) (hvalues : ∀ v ∈ values, IsValue v)
    (harg : ¬ IsValue arg) : Asks args ↔ IsRequest arg ∧ Valid values := by
  constructor
  · rintro ⟨values', request, rest', hargs', hrequest, hvalues', hvalid⟩
    obtain ⟨rfl, he⟩ := Language.run_unique (fun v => decide (IsValue v)) values values' (arg :: rest)
      (request :: rest') (by simpa using hvalues) (by simpa using hvalues') (by simpa using harg)
      (by simpa using hrequest.not_isValue) (hargs.symm.trans hargs')
    obtain rfl := (List.cons.inj he).1
    exact ⟨hrequest, hvalid⟩
  · rintro ⟨hrequest, hvalid⟩
    exact ⟨values, arg, rest, hargs, hrequest, hvalues, hvalid⟩

/-- A command line either leads to a scan or ends with one error, and with the exit code of a success
only if it asks for help or for the version. -/
theorem parse_cases (args : List String) :
    (∃ a, Accepts args a ∧ parse args = .ok a) ∨
    ((∀ a, ¬ Accepts args a) ∧ ∃ s, parse args = .error s ∧
      (Asks args ∧ s.exitCode = 0 ∨ ¬ Asks args ∧ s.exitCode = 2)) := by
  by_cases h : ∀ arg ∈ beforeEnd args, IsValue arg
  · refine (parse_without_options args h).imp_right ?_
    rintro ⟨ha, s, hs, hcode⟩
    exact ⟨ha, s, hs, .inr ⟨not_asks_of_values args h, hcode⟩⟩
  · refine .inr ⟨fun a ha => h ha.1, ?_⟩
    obtain ⟨values, arg, rest, behind, hbefore, hargs, hvalues, harg, hend⟩ := exists_option args h
    rw [asks_iff args values rest arg hbefore hvalues harg]
    have hparse : ∀ s, args.foldlM step ⟨[], false⟩ = .error s → parse args = .error s := by
      intro s hs
      rw [parse, hs]
      rfl
    rcases foldlM_option values behind arg hvalues harg hend with
      ⟨hr, hv, f, hf⟩ | ⟨hno, s, hf, hcode⟩
    · rw [← hargs] at hf
      exact ⟨_, hparse _ hf, .inl ⟨⟨hr, hv⟩, rfl⟩⟩
    · rw [← hargs] at hf
      exact ⟨s, hparse s hf, .inr ⟨hno, hcode⟩⟩

/-- A command line leads to a scan if and only if, with the first argument `--` taken out and no
option before it, it is a root that is not empty and the name of a language; and these are what is
scanned. Every other command line ends with one error. The exit code is 0 if help or the version is
asked for, after values that are right in their places, and else it is 2. -/
theorem parse_accepts_grammar (args : List String) :
    (∀ a, parse args = .ok a ↔ Accepts args a) ∧
    ((¬ ∃ a, Accepts args a) ↔ ∃ s, parse args = .error s) ∧
    ∀ s, parse args = .error s →
      (s.exitCode = 0 ↔ Asks args) ∧ (s.exitCode = 2 ↔ ¬ Asks args) := by
  rcases parse_cases args with ⟨a, ha, hparse⟩ | ⟨hno, s, hparse, hcode⟩
  · refine ⟨?_, ?_, ?_⟩
    · intro a'
      rw [hparse, Except.ok.injEq]
      constructor
      · rintro rfl
        exact ha
      · intro ha'
        exact ha.2.unique ha'.2
    · simp only [hparse, reduceCtorEq, exists_false, iff_false, not_not]
      exact ⟨a, ha⟩
    · simp [hparse]
  · refine ⟨?_, ?_, ?_⟩
    · simp [hparse, hno]
    · simp [hparse, hno]
    · intro s' hs'
      rw [hparse] at hs'
      obtain rfl := Except.error.inj hs'
      rcases hcode with ⟨hasks, hcode⟩ | ⟨hasks, hcode⟩
      · simp [hasks, hcode]
      · simp [hasks, hcode]

end CallGraph.CommandLine
