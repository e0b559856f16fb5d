import TypeEngine.Proto.Inquiry
import TypeEngine.Storage.Cache

/-!
# What an inquiry depends on

Given texts, an inquiry asks for some of them and comes to an answer. Texts that it does not ask for
do not matter (`IgnoresBlanks.congr`), and a program that finds texts without changing anything comes
to the same answer (`run_of_reads`).
-/

namespace TypeEngine.Proto.Inquiry

open Storage.Cache (fingerprint)

variable {α β : Type} {texts other : String → Option String}

/-- What the inquiry comes to when it is given the texts. -/
def answer (texts : String → Option String) : Inquiry α → α
  | done a => a
  | ask name next => (next (texts name)).answer texts

/-- The names that are asked for on the way. -/
def asked (texts : String → Option String) : Inquiry α → List String
  | done _ => []
  | ask name next => name :: (next (texts name)).asked texts

/-- Where the state is only read, running an inquiry gives its answer. -/
theorem run_of_reads {σ : Type} {find : String → StateM σ (Option String)} {s : σ}
    (reads : ∀ name, (find name).run s = (texts name, s)) (q : Inquiry α) :
    (q.run find).run s = (q.answer texts, s) := by
  induction q with
  | done a => rfl
  | ask name next ih =>
    rw [run, StateT.run_bind, reads]
    exact ih (texts name)

theorem answer_bind (q : Inquiry α) (f : α → Inquiry β) :
    (q >>= f).answer texts = (f (q.answer texts)).answer texts := by
  induction q with
  | done a => rfl
  | ask name next ih => exact ih (texts name)

theorem answer_run_bind (x : OptionT Inquiry α) (f : α → OptionT Inquiry β) :
    (x >>= f).run.answer texts = (x.run.answer texts).bind fun a => (f a).run.answer texts := by
  rw [OptionT.run_bind, Option.elimM, answer_bind]
  cases x.run.answer texts <;> rfl

/-! ### Blanks at the ends of lines -/

/-- Texts that differ only in blanks at the ends of lines lead on in the same way. -/
def IgnoresBlanks : Inquiry α → Prop
  | done _ => True
  | ask _ next =>
    (∀ text text', text.map fingerprint = text'.map fingerprint → next text = next text') ∧
      ∀ text, (next text).IgnoresBlanks

namespace IgnoresBlanks

theorem bind {q : Inquiry α} {f : α → Inquiry β} (first : q.IgnoresBlanks)
    (then_ : ∀ a, (f a).IgnoresBlanks) : (q >>= f).IgnoresBlanks := by
  induction q with
  | done a => exact then_ a
  | ask name next ih =>
    exact ⟨fun text text' same => congrArg (Inquiry.bind · f) (first.1 text text' same),
      fun text => ih text (first.2 text)⟩

theorem run_bind {x : OptionT Inquiry α} {f : α → OptionT Inquiry β} (first : x.run.IgnoresBlanks)
    (then_ : ∀ a, (f a).run.IgnoresBlanks) : (x >>= f).run.IgnoresBlanks := by
  rw [OptionT.run_bind, Option.elimM]
  refine first.bind fun found => ?_
  cases found with
  | none => trivial
  | some a => exact then_ a

/-- What is asked for and the answer depend on the texts that are asked for and on nothing else. -/
theorem congr {q : Inquiry α} (blind : q.IgnoresBlanks)
    (agree : ∀ name ∈ q.asked texts, (other name).map fingerprint = (texts name).map fingerprint) :
    q.asked other = q.asked texts ∧ q.answer other = q.answer texts := by
  induction q with
  | done a => exact ⟨rfl, rfl⟩
  | ask name next ih =>
    rw [asked, List.forall_mem_cons] at agree
    have same := blind.1 _ _ agree.1
    obtain ⟨names, answers⟩ := ih (texts name) (blind.2 _) agree.2
    rw [asked, asked, answer, answer, same]
    exact ⟨congrArg _ names, answers⟩

end IgnoresBlanks

end TypeEngine.Proto.Inquiry
