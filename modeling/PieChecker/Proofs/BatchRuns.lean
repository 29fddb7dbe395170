import PieChecker.Proofs.Parsing.Placement
import PieChecker.Proofs.Relocation

set_option autoImplicit false

/-!
# Batch and incremental runs

A program may be run text by text, or all at once with the texts on lines of their own. Where no
part of the later text is unfinished, this makes no difference: the forms are accepted as far as
before, they produce the same, and the context is the same in the end. A rejection has the same
cause, and its place is where the later text now stands.

An unfinished part would make a difference. It remembers its place, and the places of two texts
can coincide.
-/

namespace PieChecker

/-- No lexeme of the text stands for an unfinished part. -/
def HasNoTodo (source : String) : Prop :=
  ∀ ts, lex source = .ok ts → ∀ l ∈ ts, l.token ≠ .keyword .todo

theorem HasNoTodo.todos_eq_nil {source : String} {forms : List Surface.Form}
    (h : HasNoTodo source) (hparse : Surface.parse source = .ok forms) :
    ∀ form ∈ forms, form.todos = [] := by
  obtain ⟨ts, hlex, hprogram⟩ := Surface.parse_eq_ok_iff.1 hparse
  intro form hform
  rw [List.eq_nil_iff_forall_not_mem]
  intro s hs
  obtain ⟨l, hl, htoken, -⟩ := hprogram.placed.unfinished s
    (List.mem_flatMap.2 ⟨form, hform, hs⟩)
  exact h ts hlex l hl htoken

namespace Context

variable {E : Engine} {Γ : Context}

theorem processAll_cons_of_ok {Γ' : Context} {form : Surface.Form} {p : Processed}
    (h : Γ.process E form = .ok (p, Γ')) (forms : List Surface.Form) :
    Γ.processAll E (form :: forms) =
      ⟨p :: (Γ'.processAll E forms).processed, (Γ'.processAll E forms).context,
        (Γ'.processAll E forms).interrupt⟩ := by
  rw [processAll, h]

/-- Forms that are all accepted, and then more forms. -/
theorem processAll_append {forms : List Surface.Form} {first : Transcript}
    (hfirst : Γ.processAll E forms = first) (h : first.interrupt = none)
    (more : List Surface.Form) :
    Γ.processAll E (forms ++ more) =
      ⟨first.processed ++ (first.context.processAll E more).processed,
        (first.context.processAll E more).context,
        (first.context.processAll E more).interrupt⟩ := by
  subst hfirst
  induction forms generalizing Γ with
  | nil => rfl
  | cons form forms ih =>
    cases hform : Γ.process E form with
    | error i =>
      rw [processAll, hform] at h
      cases h
    | ok r =>
      obtain ⟨p, Γ'⟩ := r
      rw [processAll_cons_of_ok hform] at h
      rw [List.cons_append, processAll_cons_of_ok hform, processAll_cons_of_ok hform, ih h]
      rfl

/-- Where a text is accepted, running another one after it and running both at once agree,
except that the place of a rejection is shifted by the first text and the newline after it. The
second text must not be unfinished. -/
theorem runProgram_append_newline {a b : String} {first : Transcript}
    {forms : List Surface.Form} (hfirst : Γ.runProgram E a = .ok first)
    (haccepted : first.interrupt = none) (hparse : Surface.parse b = .ok forms)
    (htodo : HasNoTodo b) :
    ∃ second batch, first.context.runProgram E b = .ok second ∧
      Γ.runProgram E (a ++ "\n" ++ b) = .ok batch ∧
      batch.processed = first.processed ++ second.processed ∧ batch.context = second.context ∧
      batch.interrupt =
        second.interrupt.map (Interrupt.map
          (TypeError.relocate (Span.shift (a.utf8ByteSize + 1)))) := by
  obtain ⟨formsa, hparsea, hrun⟩ := bind_eq_ok_iff.1 hfirst
  have hfixed : ∀ form ∈ forms, ∀ s ∈ form.todos, Span.shift (a.utf8ByteSize + 1) s = s := by
    intro form hform s hs
    rw [htodo.todos_eq_nil hparse form hform] at hs
    cases hs
  have hbatch : Γ.runProgram E (a ++ "\n" ++ b) = .ok _ :=
    bind_eq_ok_iff.2 ⟨_, Surface.parse_append_newline hparsea hparse, rfl⟩
  rw [processAll_append (Except.ok.inj hrun) haccepted,
    processAll_relocate (Span.shift_injective _) hfixed first.context] at hbatch
  exact ⟨_, _, bind_eq_ok_iff.2 ⟨_, hparse, rfl⟩, hbatch, rfl, rfl, rfl⟩

/-- The first text ends in a comment without a newline of its own, and the second one is
rejected. -/
theorem runProgram_append_newline_comment :
    let a := "(claim n Nat) ; λ"
    let b := "\t(define n 'a)"
    let cause : Cause := .typeMismatch (.const .nat) (.const .atom)
    HasNoTodo b ∧ ∃ first second batch, Context.empty.runProgram .standard a = .ok first ∧
      first.interrupt = none ∧
      first.context.runProgram .standard b = .ok second ∧
      second.interrupt = some (.rejected ⟨⟨11, 13⟩, cause⟩) ∧
      Context.empty.runProgram .standard (a ++ "\n" ++ b) = .ok batch ∧
      batch.processed = first.processed ++ second.processed ∧ batch.context = second.context ∧
      batch.interrupt = some (.rejected ⟨⟨30, 32⟩, cause⟩) := by
  intro a b cause
  have hlexa : lex a = .ok [⟨.opening, 0, "("⟩, ⟨.keyword (.opener .claim), 1, "claim"⟩,
      ⟨.blank, 6, " "⟩, ⟨.name, 7, "n"⟩, ⟨.blank, 8, " "⟩, ⟨.keyword (.const .nat), 9, "Nat"⟩,
      ⟨.closing, 12, ")"⟩, ⟨.blank, 13, " "⟩, ⟨.blank, 14, "; λ"⟩] := by decide +kernel
  have ha : Surface.parse a = .ok [.claim ⟨⟨7, 8⟩, "n"⟩ (.const ⟨9, 12⟩ .nat)] :=
    Surface.parse_of_lex hlexa rfl
  have hlex : lex b = .ok [⟨.blank, 0, "\t"⟩, ⟨.opening, 1, "("⟩,
      ⟨.keyword (.opener .define), 2, "define"⟩, ⟨.blank, 8, " "⟩, ⟨.name, 9, "n"⟩,
      ⟨.blank, 10, " "⟩, ⟨.tick, 11, "'"⟩, ⟨.name, 12, "a"⟩, ⟨.closing, 13, ")"⟩] := by
        decide +kernel
  have hb : Surface.parse b = .ok [.define ⟨⟨9, 10⟩, "n"⟩ (.quote ⟨11, 13⟩ "a")] :=
    Surface.parse_of_lex hlex rfl
  have htodo : HasNoTodo b := by
    intro ts hts
    cases hlex.symm.trans hts
    decide
  have hfirst : Context.empty.runProgram .standard a = .ok _ := bind_eq_ok_iff.2 ⟨_, ha, rfl⟩
  obtain ⟨second, batch, hsecond, hbatch, hprocessed, hcontext, hinterrupt⟩ :=
    runProgram_append_newline hfirst rfl hb htodo
  obtain ⟨_, hparse, hrun⟩ := bind_eq_ok_iff.1 hsecond
  cases hb.symm.trans hparse
  cases hrun
  exact ⟨htodo, _, _, batch, hfirst, rfl, hsecond, rfl, hbatch, hprocessed,
    hcontext, hinterrupt⟩

end Context

end PieChecker
