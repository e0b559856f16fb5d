import TypeEngine.Proto.Link

/-!
Parsers of schema files. A parser is given the names of files and asks for their texts one by one, as
imports lead it on, so what it answers is a function of the texts that it was given.
-/

namespace TypeEngine.Proto

/-- A computation that asks for texts by name. There may be no text of a name. -/
inductive Inquiry (α : Type) where
  | done (a : α)
  | ask (name : String) (next : Option String → Inquiry α)

namespace Inquiry

variable {α β : Type}

def bind : Inquiry α → (α → Inquiry β) → Inquiry β
  | done a, f => f a
  | ask name next, f => ask name fun text => (next text).bind f

instance : Monad Inquiry := { pure := done, bind }

/-- Finds each text that is asked for. -/
def run {m : Type → Type} [Monad m] (find : String → m (Option String)) : Inquiry α → m α
  | done a => pure a
  | ask name next => do run find (next (← find name))

end Inquiry

/-- Reads the files of the names and what they import, and links them. -/
abbrev Parser := List String → Inquiry (Option Library)

/-- Asks for the text of a file. A file without a text may be a known one. -/
def findFile (name : String) : Inquiry (Option File) :=
  .ask name fun
    | some text => .done (File.parse name text)
    | none => .done (wellKnown? name)

/-- The parser that commands use. -/
def Parser.builtin : Parser := fun names => (Library.ofSources findFile names).run

end TypeEngine.Proto
