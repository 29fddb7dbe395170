import PieChecker.Command
import PieChecker.Proofs.ByteCuts
import PieChecker.Proofs.Lexing.Stretches
import PieChecker.Proofs.Parsing.Placement
import PieChecker.Proofs.Parsing.Refusals
import PieChecker.Proofs.Provenance
import PieChecker.Proofs.SessionStates

set_option autoImplicit false

/-!
# Everything that is wrong can be reported

A report cuts its text at byte positions, and there is none for a position inside a character.
The spans that a run of a program mentions are slices of its text: they begin and end between
characters. This holds for faults of the lexer, for what the reader refuses, for the places of
rejections and for unfinished parts. So every one of them has a report.

Main statement: in a run on a new session, a rejection is at a place of the form that was
rejected, an unfinished part is where the text says so, and everything that is to be reported is
reported.
-/

namespace PieChecker

open Text Lexer

/-- The span is that of a part of the text, cut between characters. -/
def Span.IsSlice (s : Span) (source : List Char) : Prop :=
  ∃ before inside after, source = before ++ inside ++ after ∧
    s = ⟨byteSize before, byteSize before + byteSize inside⟩

/-! ## Reports about slices -/

namespace Report

/-- The rest of a line, up to its newline. -/
def restOfLine (cs : List Char) : List Char := cs.takeWhile (· ≠ '\n')

theorem restOfLine_append_of_not_mem {cs : List Char} (h : '\n' ∉ cs) (ds : List Char) :
    restOfLine (cs ++ ds) = cs ++ restOfLine ds := by
  refine List.takeWhile_append_of_pos fun c hc => ?_
  exact decide_eq_true fun heq => h (heq ▸ hc)

theorem restOfLine_newline (ds : List Char) : restOfLine ('\n' :: ds) = [] := rfl

theorem restOfLine_of_not_mem {cs : List Char} (h : '\n' ∉ cs) : restOfLine cs = cs := by
  refine List.takeWhile_eq_self_iff.2 fun c hc => ?_
  exact decide_eq_true fun heq => h (heq ▸ hc)

/-- Where a report finds a slice: it underlines the part of the slice that is on the line where
it begins. -/
theorem place?_slice (before inside after : List Char) :
    place? (before ++ inside ++ after) ⟨byteSize before, byteSize before + byteSize inside⟩ =
      some ⟨before.count '\n' + 1, (restOfLine before.reverse).reverse, restOfLine inside,
        if '\n' ∈ inside then [] else restOfLine after⟩ := by
  have hstart : min (byteSize before) (byteSize (before ++ inside ++ after)) =
      byteSize before := by
    rw [byteSize_append, byteSize_append]
    omega
  have hsize : byteSize before + byteSize inside - byteSize before = byteSize inside := by omega
  have hplace : place? (before ++ inside ++ after)
      ⟨byteSize before, byteSize before + byteSize inside⟩ =
        (cutAt? (min (byteSize inside) (byteSize (restOfLine (inside ++ after))))
          (restOfLine (inside ++ after))).bind
        fun cut => some ⟨before.count '\n' + 1, (restOfLine before.reverse).reverse, cut.1,
          cut.2⟩ := by
    unfold place?
    simp only [hstart, hsize]
    rw [List.append_assoc, cutAt?_byteSize]
    rfl
  rw [hplace]
  by_cases hinside : '\n' ∈ inside
  · -- The slice goes on after the line where it begins, so all the rest of that line is
    -- underlined.
    obtain ⟨line, rest, rfl, hline⟩ := List.eq_append_cons_of_mem hinside
    have hmin : min (byteSize (line ++ '\n' :: rest)) (byteSize line) = byteSize line := by
      rw [byteSize_append]
      omega
    have hcut := cutAt?_byteSize line []
    rw [List.append_nil] at hcut
    rw [List.append_assoc, List.cons_append, restOfLine_append_of_not_mem hline,
      restOfLine_append_of_not_mem hline, restOfLine_newline, restOfLine_newline,
      List.append_nil, hmin, hcut, if_pos hinside]
    rfl
  · have hmin : min (byteSize inside) (byteSize (inside ++ restOfLine after)) =
        byteSize inside := by
      rw [byteSize_append]
      omega
    rw [restOfLine_append_of_not_mem hinside, hmin, cutAt?_byteSize,
      restOfLine_of_not_mem hinside, if_neg hinside]
    rfl

theorem about_of_isSlice (width : List Char → Nat) {source : String} {s : Span}
    (h : s.IsSlice source.toList) (message : String) :
    ∃ report, about width source s message = .ok report := by
  obtain ⟨before, inside, after, hsource, rfl⟩ := h
  unfold about
  rw [hsource, place?_slice]
  exact ⟨_, rfl⟩

end Report

/-! ## Slices of a text -/

namespace Lexer

variable {l : List (List Char)}

theorem start_of_head? {position : Nat} {x : Lexeme}
    (h : (lexemesFrom position l).head? = some x) :
    x.start = position := by
  cases l with
  | nil => cases h
  | cons cs l =>
    cases h
    rfl

theorem stop_of_getLast? {position : Nat} {x : Lexeme}
    (h : (lexemesFrom position l).getLast? = some x) :
    x.stop = position + byteSize l.flatten := by
  rcases List.eq_nil_or_concat l with rfl | ⟨l, cs, rfl⟩
  · cases h
  · rw [List.concat_eq_append] at h ⊢
    rw [lexemesFrom_append, lexemesFrom, lexemesFrom, List.getLast?_concat] at h
    cases h
    rw [Lexeme.stop, utf8ByteSize_ofList, List.flatten_append, byteSize_append,
      List.flatten_singleton, Nat.add_assoc]

/-- A run of lexemes is a slice of the text. -/
theorem isSlice_run {xs used ys : List Lexeme} {x y : Lexeme}
    (h : lexemesFrom 0 l = xs ++ used ++ ys) (hx : used.head? = some x)
    (hy : used.getLast? = some y) : (⟨x.start, y.stop⟩ : Span).IsSlice l.flatten := by
  obtain ⟨m, after, rfl, hm, -⟩ := lexemesFrom_eq_append h
  obtain ⟨before, inside, rfl, -, rfl⟩ := lexemesFrom_eq_append hm.symm
  refine ⟨before.flatten, inside.flatten,
    after.flatten, by rw [List.flatten_append, List.flatten_append], ?_⟩
  rw [start_of_head? hx, stop_of_getLast? hy, Nat.zero_add]

/-- So is a single one. -/
theorem isSlice_lexeme {x : Lexeme} (h : x ∈ lexemesFrom 0 l) : x.span.IsSlice l.flatten := by
  obtain ⟨xs, ys, hsplit⟩ := List.append_of_mem h
  have hrun : lexemesFrom 0 l = xs ++ [x] ++ ys := by
    rw [hsplit, List.append_assoc, List.singleton_append]
  exact isSlice_run hrun rfl rfl

/-- The part of a piece that a fault underlines. -/
theorem Blocked.exists_underlined {os : List (Bracket × Nat)} {cs : List Char}
    {fault : LexFault} (h : Blocked os cs fault) : ∃ underlined rest, cs = underlined ++ rest ∧
    fault.size = byteSize underlined := by
  cases h with
  | word h =>
    cases h.fault with
    | @unrecognizedStart c cs hc => exact ⟨[c], cs, rfl, rfl⟩
    | malformedName hc => exact ⟨_, [], (List.append_nil _).symm, utf8ByteSize_ofList _⟩
  | @mismatched b h => exact ⟨[b.closingChar], [], rfl, by cases b <;> rfl⟩

/-- What a lexical error underlines is a slice of the text. -/
theorem FirstFault.isSlice {e : LexError} (h : FirstFault l e) :
    (⟨e.position, e.position + e.fault.size⟩ : Span).IsSlice l.flatten := by
  cases h with
  | @piece before after cs os fault _ hcs =>
    obtain ⟨underlined, rest, rfl, hsize⟩ := hcs.exists_underlined
    refine ⟨before.flatten, underlined, rest ++ after.flatten, ?_, by rw [hsize]⟩
    simp only [List.flatten_append, List.flatten_cons, List.append_assoc]
  | @unclosed _ b _ _ h =>
    cases h.leavesOpen with
    | @some before inner _ _ _ _ =>
      refine ⟨before.flatten, [b.openingChar], inner.flatten, ?_, by cases b <;> rfl⟩
      simp only [List.flatten_append, List.flatten_cons, List.append_assoc]

end Lexer

/-- The end of the text is a slice without characters. -/
theorem isSlice_end (source : String) :
    (⟨source.utf8ByteSize, source.utf8ByteSize⟩ : Span).IsSlice source.toList := by
  refine ⟨source.toList, [], [], by simp, ?_⟩
  rw [← utf8ByteSize_ofList, String.ofList_toList]
  rfl

/-! ## Everything that a run reports -/

/-- What the report of a text that was not read underlines. -/
def ReadError.underlined : ReadError → Span
  | lex e => ⟨e.position, e.position + e.fault.size⟩
  | parse e => e.span

theorem ReadError.exists_report {source : String} {e : ReadError}
    (h : e.underlined.IsSlice source.toList) :
    ∃ report, e.report source = .ok report := by
  cases e with
  | lex e => exact Report.about_of_isSlice _ h _
  | parse e => exact Report.about_of_isSlice _ h _

namespace Surface

variable {source : String}

theorem mapError_eq_error {ε δ α : Type} {f : ε → δ} {r : Except ε α} {e : δ}
    (h : r.mapError f = .error e) :
    ∃ e', r = .error e' ∧ f e' = e := by
  cases r with
  | error e' => exact ⟨e', rfl, Except.error.inj h⟩
  | ok a => cases h

theorem isSlice_of_parse_eq_error {e : ReadError} (h : parse source = .error e) :
    e.underlined.IsSlice source.toList := by
  rcases of_bind_eq_error h with herror | ⟨ts, hok, herror⟩
  · obtain ⟨e', hlex, rfl⟩ := mapError_eq_error herror
    have hslice := (lex_eq_error_iff.1 hlex).isSlice
    rwa [flatten_pieces] at hslice
  · obtain ⟨e', hparse, rfl⟩ := mapError_eq_error herror
    obtain ⟨-, -, rfl⟩ := lex_eq_ok_iff.1 (mapError_eq_ok_iff.1 hok)
    have hspan := span_of_parseLexemes_eq_error hparse
    show e'.span.IsSlice source.toList
    rcases hspan with ⟨l, hl, hspan⟩ | hspan
    · have hslice := isSlice_lexeme hl
      rw [hspan]
      rwa [flatten_pieces] at hslice
    · rw [hspan]
      exact isSlice_end source

/-- The places of a program are slices of its text. -/
theorem isSlice_of_mem_places {forms : List Form} (h : parse source = .ok forms) {form : Form}
    (hform : form ∈ forms) {s : Span} (hs : s ∈ form.places) : s.IsSlice source.toList := by
  obtain ⟨ts, hlex, hprogram⟩ := parse_eq_ok_iff.1 h
  obtain ⟨-, -, rfl⟩ := lex_eq_ok_iff.1 hlex
  obtain ⟨before, used, after, l, r, hts, hl, hr, rfl⟩ :=
    hprogram.placed.spans s (List.mem_flatMap.2 ⟨form, hform, hs⟩)
  have hslice := isSlice_run hts hl hr
  rwa [flatten_pieces] at hslice

end Surface

/-- What is reported in a run on a new session, and where. -/
structure Located (E : Engine) (source : String) : Prop where
  /-- A text that is not read is reported at a slice of it. -/
  unread : ∀ e, Context.empty.runProgram E source = .error e →
    e.underlined.IsSlice source.toList ∧ ∃ report, e.report source = .ok report
  /-- An unfinished part is where the text has a lexeme for one. -/
  unfinished : ∀ t, Context.empty.runProgram E source = .ok t → ∀ p ∈ t.processed,
    ∀ hole ∈ p.holes, (∃ ts, lex source = .ok ts ∧ ∃ l ∈ ts, l.token = .keyword .todo ∧
      l.span = hole.span) ∧
      hole.span.IsSlice source.toList ∧ ∃ report, hole.report source = .ok report
  /-- A rejection is at a place of the first form that is not accepted. -/
  rejected : ∀ t e, Context.empty.runProgram E source = .ok t →
    t.interrupt = some (.rejected e) →
    (∃ accepted form later, Surface.parse source = .ok (accepted ++ form :: later) ∧
      Context.Accepted E .empty accepted t.processed t.context ∧
      t.context.process E form = .error (.rejected e) ∧ e.span ∈ form.places) ∧
      e.span.IsSlice source.toList ∧ ∃ report, e.report source = .ok report

theorem located (E : Engine) (source : String) : Located E source where
  unread e h := by
    rcases of_bind_eq_error h with hparse | ⟨_, _, herror⟩
    · have hslice := Surface.isSlice_of_parse_eq_error hparse
      exact ⟨hslice, ReadError.exists_report hslice⟩
    · cases herror
  unfinished t h p hp hole hhole := by
    obtain ⟨forms, hparse, hrun⟩ := bind_eq_ok_iff.1 h
    obtain rfl : Context.empty.processAll E forms = t := Except.ok.inj hrun
    obtain ⟨form, hform, htodo⟩ := Context.mem_todos_of_mem_holes hp hhole
    obtain ⟨ts, hlex, hprogram⟩ := Surface.parse_eq_ok_iff.1 hparse
    have hlexeme := hprogram.placed.unfinished _ (List.mem_flatMap.2 ⟨form, hform, htodo⟩)
    have hslice := Surface.isSlice_of_mem_places hparse hform (form.todos_subset_places htodo)
    exact ⟨⟨ts, hlex, hlexeme⟩, hslice, Report.about_of_isSlice _ hslice _⟩
  rejected t e h hinterrupt := by
    obtain ⟨forms, hparse, hrun⟩ := bind_eq_ok_iff.1 h
    obtain rfl : Context.empty.processAll E forms = t := Except.ok.inj hrun
    obtain ⟨accepted, rest, rfl, haccepted, ⟨-, hnone⟩ | ⟨form, later, i, rfl, hform, hsome⟩⟩ :=
      Context.processAll_cases (E := E) .empty forms
    · rw [hnone] at hinterrupt
      cases hinterrupt
    · rw [hsome] at hinterrupt
      cases hinterrupt
      have hplace := Context.span_mem_places_of_rejected hform
      have hslice := Surface.isSlice_of_mem_places hparse (by simp) hplace
      exact ⟨⟨accepted, form, later, hparse, haccepted, hform, hplace⟩, hslice,
        Report.about_of_isSlice _ hslice _⟩

/-! ## The command -/

namespace Command

theorem exists_mapM_eq_ok {ε α β : Type} {f : α → Except ε β} {l : List α}
    (h : ∀ a ∈ l, ∃ b, f a = .ok b) :
    ∃ bs, l.mapM f = .ok bs := by
  induction l with
  | nil => exact ⟨[], rfl⟩
  | cons a l ih =>
    obtain ⟨⟨b, hb⟩, hl⟩ := List.forall_mem_cons.1 h
    obtain ⟨bs, hbs⟩ := ih hl
    refine ⟨b :: bs, ?_⟩
    rw [List.mapM_cons, hb, hbs]
    rfl

/-- If all unfinished parts of the accepted forms have reports, then the run ends as it is said
to end. -/
theorem code_showAll {source : String} {quiet : Bool} {ending : Console} {ps : List Processed}
    (h : ∀ p ∈ ps, ∀ hole ∈ p.holes, ∃ report, hole.report source = .ok report) :
    (showAll source quiet ending ps).code = ending.code := by
  induction ps with
  | nil => rfl
  | cons p ps ih =>
    obtain ⟨hp, hps⟩ := List.forall_mem_cons.1 h
    obtain ⟨reports, hreports⟩ := exists_mapM_eq_ok hp
    have hshown : showProcessed source quiet p = .ok _ :=
      bind_eq_ok_iff.2 ⟨reports, hreports, rfl⟩
    rw [showAll, hshown]
    exact ih hps

/-- What is wrong with a program is reported, at slices of its text, and where it was written.
The command breaks only if checking itself does. -/
theorem check_reports (source : String) : (∀ E, Located E source) ∧
    ∀ quiet, (check source quiet).code = 101 ↔
      ∃ t stop, Context.empty.runProgram .standard source = .ok t ∧
      t.interrupt = some (.stopped stop) := by
  refine ⟨fun E => located E source, fun quiet => ?_⟩
  have hlocated := located .standard source
  unfold check
  cases hrun : Context.empty.runProgram .standard source with
  | error e =>
    obtain ⟨-, report, hreport⟩ := hlocated.unread e hrun
    simp [hreport, Console.ofReport, Console.failure]
  | ok t =>
    have hshown : ∀ ending, (showAll source quiet ending t.processed).code = ending.code :=
      fun ending =>
      code_showAll fun p hp hole hhole => (hlocated.unfinished t hrun p hp hole hhole).2.2
    dsimp only
    rw [hshown]
    rcases hinterrupt : t.interrupt with _ | e | stop
    · simp [Console.silent, hinterrupt]
    · obtain ⟨-, -, report, hreport⟩ := hlocated.rejected t e hrun hinterrupt
      simp [hreport, Console.ofReport, Console.failure, hinterrupt]
    · simp [Console.aborted, hinterrupt]

end Command

end PieChecker
