import PocketCalc.KeyScript
import PocketCalc.Proofs.EventEffects

/-!
# Key scripts are atomic and compositional

A script is read before a key of it is pressed. So an unknown word keeps every key of the
script from being pressed (`scriptEvents_of_unknown`), and what is pressed is the events of
the words, one after the other (`scriptEvents_of_reads`). A literal is no key: it is typed
like its characters (`reads_characters`).

* `Session.press_of_error` — a press that fails leaves the session alone.
* `Session.foldl_press` — accepted words are pressed at once or one by one.
* `Session.scripts_atomic_and_compositional` — **all or nothing, word by word.**
-/

namespace PocketCalc

/-! ## Keys of a literal -/

/-- A digit and a point are keys. -/
theorem isSome_keyEvent?_singleton {c : Char} (h : isLiteralChar c = true) :
    (keyEvent? (String.singleton c)).isSome = true := by
  unfold keyEvent?
  split
  case h_20 hpoint _ _ _ _ _ _ _ _ _ _ _ _ _ _ _ _ _ _ =>
    -- none of the names, so that the character is no point but a digit
    have hne : c ≠ '.' := by
      rintro rfl
      exact hpoint rfl
    have hdigit : c.isDigit = true := by simpa [isLiteralChar, hne] using h
    have hread : (Decimal.Digit.ofChar? c).isSome = true := by
      rw [Stage.isSome_ofChar?, hdigit]
    obtain ⟨d, hd⟩ := Option.isSome_iff_exists.mp hread
    simp [valueEvent?, characterEvent?, hd, String.toList_singleton]
  all_goals rfl

theorem toLower_of_isLiteralChar {c : Char} (h : isLiteralChar c = true) : c.toLower = c := by
  have hval : c.val.toNat ≤ 57 := by
    rcases Bool.or_eq_true_iff.mp h with hdigit | hpoint
    · rw [← Stage.isSome_ofChar?, Decimal.Digit.isSome_ofChar?] at hdigit
      simp only [Bool.and_eq_true, decide_eq_true_eq] at hdigit
      exact Nat.le_of_lt_succ hdigit.2
    · obtain rfl : c = '.' := by simpa using hpoint
      decide
  delta Char.toLower
  rw [dif_neg]
  rintro ⟨hupper, _⟩
  have : 65 ≤ c.val.toNat := UInt32.le_iff_toNat_le.mp hupper
  omega

section

variable {word : String} (hword : word.toList.all isLiteralChar = true)
include hword

/-- A name with a letter is no literal. -/
theorem ne_of_literal {name : String} (hname : name.toList.all isLiteralChar = false) :
    word ≠ name := by
  rintro rfl
  rw [hword] at hname
  cases hname

theorem sameLetters_literal {name : String}
    (hname : (name.toList.map Char.toLower).all isLiteralChar = false) :
    sameLetters name word = false := by
  have hlower : word.toList.map Char.toLower = word.toList.map id := by
    refine List.map_congr_left fun c hc => ?_
    exact toLower_of_isLiteralChar (List.all_eq_true.mp hword c hc)
  rw [List.map_id] at hlower
  rw [sameLetters, hlower, beq_eq_false_iff_ne]
  intro heq
  rw [heq, hword] at hname
  cases hname

theorem ofName?_literal : Func.ofName? word = none ∧ Constant.ofName? word = none := by
  have hsqrt : word ≠ "√" := ne_of_literal hword (by decide)
  have hpi : word ≠ "π" := ne_of_literal hword (by decide)
  have he : word ≠ "e" := ne_of_literal hword (by decide)
  have hE : word ≠ "E" := ne_of_literal hword (by decide)
  constructor
  · rw [Func.ofName?, if_neg hsqrt, List.find?_eq_none]
    intro f _
    have hname : (f.name.toList.map Char.toLower).all isLiteralChar = false := by
      revert f
      decide
    simp [sameLetters_literal hword hname]
  · have hname : sameLetters word "pi" = false := by
      have hswap := sameLetters_literal hword
        (show ("pi".toList.map Char.toLower).all _ = _ by decide)
      rw [sameLetters, beq_eq_false_iff_ne] at hswap ⊢
      exact hswap.symm
    simp [Constant.ofName?, hpi, he, hE, hname]

/-- A literal of any other length is no key. -/
theorem keyEvent?_literal (hlength : word.toList.length ≠ 1) : keyEvent? word = none := by
  unfold keyEvent?
  split
  case h_20 =>
    obtain ⟨hfunction, hconstant⟩ := ofName?_literal hword
    rw [valueEvent?, hfunction, hconstant]
    split
    · next c hc =>
      rw [hc] at hlength
      exact absurd rfl hlength
    · rfl
  all_goals
    revert hword hlength
    decide

end

/-! ## Words -/

/-- The events that the words of a script are read as, word by word. -/
def Reads (words : List String) (parts : List (List Event)) : Prop :=
  List.Forall₂ (fun word events => wordEvents word = .ok events) words parts

/-- The word is a key or a literal. -/
def Accepted (word : String) : Prop :=
  ∃ events, wordEvents word = .ok events

/-- Words that are accepted are read. -/
theorem exists_reads {words : List String} (h : ∀ word ∈ words, Accepted word) :
    ∃ parts, Reads words parts := by
  induction words with
  | nil => exact ⟨[], .nil⟩
  | cons word words ih =>
      obtain ⟨⟨events, hevents⟩, hrest⟩ := List.forall_mem_cons.mp h
      obtain ⟨parts, hparts⟩ := ih hrest
      exact ⟨events :: parts, .cons hevents hparts⟩

/-- Words that are read are accepted. -/
theorem Reads.accepted {words : List String} {parts : List (List Event)}
    (h : Reads words parts) : ∀ word ∈ words, Accepted word := by
  induction h with
  | nil => exact nofun
  | cons hword _ ih => exact List.forall_mem_cons.mpr ⟨⟨_, hword⟩, ih⟩

/-- A word that is refused is named by the refusal. -/
theorem wordEvents_of_not_accepted {word : String} (h : ¬ Accepted word) :
    wordEvents word = .error ⟨word⟩ := by
  unfold Accepted wordEvents at *
  split
  · next event hevent => simp [hevent] at h
  · next hnone =>
    split
    · next hliteral =>
      split
      · next events hevents => simp [hnone, hliteral, hevents] at h
      · rfl
    · rfl

/-- Each character of a literal is read as a key of its own. -/
theorem reads_singletons {cs : List Char} (h : cs.all isLiteralChar = true) :
    ∃ events, cs.mapM (fun c => keyEvent? (String.singleton c)) = some events ∧
      Reads (cs.map String.singleton) (events.map fun event => [event]) := by
  induction cs with
  | nil => exact ⟨[], rfl, .nil⟩
  | cons c cs ih =>
      obtain ⟨hc, hcs⟩ : isLiteralChar c = true ∧ cs.all isLiteralChar = true := by simpa using h
      obtain ⟨event, hevent⟩ := Option.isSome_iff_exists.mp (isSome_keyEvent?_singleton hc)
      obtain ⟨events, hevents, hreads⟩ := ih hcs
      refine ⟨event :: events, by simp [hevent, hevents], .cons ?_ hreads⟩
      simp [wordEvents, hevent]

/-- **A literal is typed like its characters.** -/
theorem reads_characters {word : String} (hword : word.toList.all isLiteralChar = true) :
    ∃ parts, Reads (word.toList.map String.singleton) parts ∧
      wordEvents word = .ok parts.flatten := by
  obtain ⟨events, hevents, hreads⟩ := reads_singletons hword
  have hflat : (events.map fun event => [event]).flatten = events := by
    rw [← List.flatMap_def, List.flatMap_singleton']
  refine ⟨_, hreads, ?_⟩
  rw [hflat]
  cases hkey : keyEvent? word with
  | none => simp [wordEvents, hkey, hword, hevents]
  | some event =>
      -- a literal that is a key is a single character
      have hlength : word.toList.length = 1 := by
        by_contra hne
        rw [keyEvent?_literal hword hne] at hkey
        cases hkey
      obtain ⟨c, hc⟩ := List.length_eq_one_iff.mp hlength
      obtain rfl : word = String.singleton c := by
        rw [← String.toList_inj, hc, String.toList_singleton]
      rw [hc] at hevents
      obtain rfl : [event] = events := by simpa [hkey] using hevents
      simp [wordEvents, hkey]

/-! ## Scripts -/

/-- **A script is read word by word.** -/
theorem scriptEvents_of_reads {words : List String} {parts : List (List Event)}
    (h : Reads words parts) : scriptEvents words = .ok parts.flatten := by
  induction h with
  | nil => rfl
  | cons hword _ ih => simp [scriptEvents, hword, ih, bind, Except.bind, pure, Except.pure]

/-- **The first unknown word** keeps a script from being read. -/
theorem scriptEvents_of_unknown {front : List String} (hfront : ∀ word ∈ front, Accepted word)
    {word : String} (hword : ¬ Accepted word) (rest : List String) :
    scriptEvents (front ++ word :: rest) = .error ⟨word⟩ := by
  induction front with
  | nil => simp [scriptEvents, wordEvents_of_not_accepted hword, bind, Except.bind]
  | cons first front ih =>
      obtain ⟨⟨events, hevents⟩, hrest⟩ := List.forall_mem_cons.mp hfront
      simp [scriptEvents, hevents, ih hrest, bind, Except.bind]

/-- A script with two parts is read part by part. -/
theorem Reads.append {ws₁ ws₂ : List String} {parts₁ parts₂ : List (List Event)}
    (h₁ : Reads ws₁ parts₁) (h₂ : Reads ws₂ parts₂) :
    Reads (ws₁ ++ ws₂) (parts₁ ++ parts₂) :=
  List.rel_append h₁ h₂

/-- Every script is read, or it has a first word that is unknown. -/
theorem reads_or_unknown (words : List String) :
    (∃ parts, Reads words parts) ∨
    ∃ front word rest, words = front ++ word :: rest ∧ (∀ w ∈ front, Accepted w) ∧
      ¬ Accepted word := by
  induction words with
  | nil => exact .inl ⟨[], .nil⟩
  | cons first words ih =>
      by_cases hfirst : Accepted first
      · rcases ih with ⟨parts, hparts⟩ | ⟨front, word, rest, rfl, hfront, hword⟩
        · obtain ⟨events, hevents⟩ := hfirst
          exact .inl ⟨events :: parts, .cons hevents hparts⟩
        · exact .inr ⟨first :: front, word, rest, rfl, List.forall_mem_cons.mpr ⟨hfirst, hfront⟩,
            hword⟩
      · exact .inr ⟨[], first, words, rfl, by simp, hfirst⟩

theorem scriptEvents_append (ws₁ ws₂ : List String) :
    scriptEvents (ws₁ ++ ws₂) = do
      let events ← scriptEvents ws₁
      let more ← scriptEvents ws₂
      return events ++ more := by
  induction ws₁ with
  | nil =>
    cases h : scriptEvents ws₂ <;> simp [scriptEvents, h, bind, Except.bind, pure, Except.pure]
  | cons word ws₁ ih =>
      simp only [List.cons_append, scriptEvents, ih]
      cases wordEvents word <;> cases scriptEvents ws₁ <;> cases scriptEvents ws₂ <;>
        simp [bind, Except.bind, pure, Except.pure]

/-- **A literal among the words may be given character by character.** -/
theorem scriptEvents_literal (front rest : List String) {word : String}
    (hword : word.toList.all isLiteralChar = true) :
    scriptEvents (front ++ word.toList.map String.singleton ++ rest) =
      scriptEvents (front ++ word :: rest) := by
  obtain ⟨parts, hparts, hevents⟩ := reads_characters hword
  have hsame : scriptEvents (word.toList.map String.singleton ++ rest) =
      scriptEvents (word :: rest) := by
    rw [scriptEvents_append, scriptEvents_of_reads hparts, scriptEvents, hevents]
  rw [List.append_assoc, scriptEvents_append, hsame, ← scriptEvents_append]

namespace Session

/-! ## Presses -/

/-- A script whose words are all read is pressed. -/
theorem press_of_reads (s : Session) {words : List String} {parts : List (List Event)}
    (h : Reads words parts) :
    s.press words =
      (.ok (stepsOf s.calculator parts.flatten), ⟨s.calculator.run parts.flatten⟩) := by
  rw [press, scriptEvents_of_reads h]

/-- A script with an unknown word is refused, whatever stands in front of the word. -/
theorem press_of_unknown (s : Session) {front : List String}
    (hfront : ∀ word ∈ front, Accepted word) {word : String} (hword : ¬ Accepted word)
    (rest : List String) : s.press (front ++ word :: rest) = (.error ⟨word⟩, s) := by
  rw [press, scriptEvents_of_unknown hfront hword]

/-- **A press that fails leaves the session alone.** -/
theorem press_of_error {s t : Session} {words : List String} {e : UnknownKey}
    (h : s.press words = (.error e, t)) : t = s := by
  unfold press at h
  split at h
  · cases h
  · exact (Prod.mk.inj h).2.symm

/-- **Two scripts one after the other are one script.** -/
theorem press_append (s : Session) {ws₁ ws₂ : List String} {parts₁ parts₂ : List (List Event)}
    (h₁ : Reads ws₁ parts₁) (h₂ : Reads ws₂ parts₂) :
    s.press (ws₁ ++ ws₂) =
      (.ok (stepsOf s.calculator parts₁.flatten ++
        stepsOf (s.calculator.run parts₁.flatten) parts₂.flatten),
        ⟨(s.calculator.run parts₁.flatten).run parts₂.flatten⟩) := by
  rw [press_of_reads s (h₁.append h₂), List.flatten_append, Calculator.run_append, stepsOf,
    Calculator.trace_append, List.map_append]
  rfl

/-- **Accepted words may be pressed one by one**: the session is that behind the script. -/
theorem foldl_press (s : Session) {words : List String} (h : ∀ word ∈ words, Accepted word) :
    words.foldl (fun t word => (t.press [word]).2) s = (s.press words).2 := by
  induction words generalizing s with
  | nil => rfl
  | cons word words ih =>
      obtain ⟨⟨events, hevents⟩, hrest⟩ := List.forall_mem_cons.mp h
      obtain ⟨parts, hparts⟩ := exists_reads hrest
      have hword : Reads [word] [events] := .cons hevents .nil
      have hwhole : s.press (word :: words) = _ := s.press_append hword hparts
      rw [List.foldl_cons, ih _ hrest, hwhole, s.press_of_reads hword, press_of_reads _ hparts]

/-- With an unknown word the script presses nothing, while one by one the words in front of it
would have been pressed. -/
example :
    let s := new {}
    (s.press ["2", "what"]).2 = s ∧
      (["2", "what"].foldl (fun t word => (t.press [word]).2) s).calculator.buffer = ['2'] := by
  decide +kernel

/-- **Key scripts are atomic and compositional.** Either a script has a first word that is
neither a key nor a literal: then the press fails, names that word and leaves the session as
it is. Or every word is read, and then their events are applied in order, with one step for
each: the event, its outcome in the state behind the events before it, and the line displayed
after it. Two scripts whose words are all accepted can be pressed one after the other or as
one: the state reached is the same, and the steps are those of the first followed by those of
the second. A literal of digits and points can be given as one word or character by
character. -/
theorem scripts_atomic_and_compositional (s : Session) :
    (∀ words,
      (∃ front word rest, words = front ++ word :: rest ∧ (∀ w ∈ front, Accepted w) ∧
        ¬ Accepted word ∧ s.press words = (.error ⟨word⟩, s)) ∨
      ∃ parts, Reads words parts ∧ ∃ steps,
        s.press words = (.ok steps, ⟨s.calculator.run parts.flatten⟩) ∧
        ∀ i, steps[i]? = parts.flatten[i]?.map fun e =>
          let r := (s.calculator.run (parts.flatten.take i)).apply e
          ⟨e, r.1, r.2.line⟩) ∧
    (∀ ws₁ ws₂, (∀ w ∈ ws₁, Accepted w) → (∀ w ∈ ws₂, Accepted w) →
      ∃ steps₁ s₁ steps₂ s₂, s.press ws₁ = (.ok steps₁, s₁) ∧ s₁.press ws₂ = (.ok steps₂, s₂) ∧
        s.press (ws₁ ++ ws₂) = (.ok (steps₁ ++ steps₂), s₂)) ∧
    ∀ front word rest, (∀ c ∈ word.toList, c.isDigit = true ∨ c = '.') →
      s.press (front ++ word.toList.map String.singleton ++ rest) =
        s.press (front ++ word :: rest) := by
  refine ⟨?_, ?_, ?_⟩
  · intro words
    rcases reads_or_unknown words with ⟨parts, hparts⟩ | ⟨front, word, rest, rfl, hfront, hword⟩
    · refine .inr ⟨parts, hparts, _, s.press_of_reads hparts, ?_⟩
      intro i
      rw [stepsOf, List.getElem?_map, Calculator.trace_getElem?, Option.map_map]
      rfl
    · exact .inl ⟨front, word, rest, rfl, hfront, hword, s.press_of_unknown hfront hword rest⟩
  · intro ws₁ ws₂ h₁ h₂
    obtain ⟨parts₁, hparts₁⟩ := exists_reads h₁
    obtain ⟨parts₂, hparts₂⟩ := exists_reads h₂
    exact ⟨_, _, _, _, press_of_reads s hparts₁, press_of_reads _ hparts₂,
      press_append s hparts₁ hparts₂⟩
  · intro front word rest hliteral
    have hword : word.toList.all isLiteralChar = true := by
      simpa [List.all_eq_true, isLiteralChar] using hliteral
    rw [press, press, scriptEvents_literal front rest hword]

end Session

end PocketCalc
