/-
What flatten mode makes of the descriptor of nested mode.

Both modes walk the tree once and differ in where a definition goes.  A message goes to the
file when it closes, so messages come out behind those nested in them; an enum goes there
when it is met, so enums come out in the order of the text.  The first order can be told
from the nested descriptor.  The second cannot, since a message does not say whether its own
enums were declared before its messages or after them; for enums the nested descriptor fixes
only which there are and how often.
-/
import Schemata.Proofs.Lowering.Parts

namespace Schemata

open Fallible Descriptor

/-! ### Definitions at any depth -/

namespace Descriptor

mutual

/-- The messages nested in a message and behind them the message itself, none with a
definition in it. -/
def Message.flattened : Message → List Message
  | ⟨name, fields, messages, _⟩ => Message.flattenedIn messages ++ [⟨name, fields, [], []⟩]

/-- The same of the messages of a list, one after the other. -/
def Message.flattenedIn : List Message → List Message
  | [] => []
  | m :: ms => m.flattened ++ Message.flattenedIn ms

end

mutual

/-- The enums of a message and of the messages nested in it. -/
def Message.allEnums : Message → List Enum
  | ⟨_, _, messages, enums⟩ => enums ++ Message.allEnumsIn messages

/-- The same of the messages of a list. -/
def Message.allEnumsIn : List Message → List Enum
  | [] => []
  | m :: ms => m.allEnums ++ Message.allEnumsIn ms

end

/-- The enums of a file, those nested in messages included. -/
def File.allEnums (f : File) : List Enum := f.enums ++ Message.allEnumsIn f.messages

theorem Message.flattenedIn_append (ms ns : List Message) :
    flattenedIn (ms ++ ns) = flattenedIn ms ++ flattenedIn ns := by
  induction ms with
  | nil => rw [List.nil_append, flattenedIn, List.nil_append]
  | cons m ms ih => rw [List.cons_append, flattenedIn, ih, flattenedIn, List.append_assoc]

theorem Message.allEnumsIn_append (ms ns : List Message) :
    allEnumsIn (ms ++ ns) = allEnumsIn ms ++ allEnumsIn ns := by
  induction ms with
  | nil => rw [List.nil_append, allEnumsIn, List.nil_append]
  | cons m ms ih => rw [List.cons_append, allEnumsIn, ih, allEnumsIn, List.append_assoc]

end Descriptor

/-! ### One walk in two modes -/

namespace Lowering

/-- Contents with every definition at the top, the enums being these. -/
def Contents.flattened (c : Contents) (enums : List Enum) : Contents :=
  ⟨c.fields, Message.flattenedIn c.messages, enums⟩

mutual

/-- In flatten mode a member adds what it adds in nested mode, with every definition at the
top. -/
theorem contents_flatten (enumNames : List String) (m : Member) :
    contents .flatten enumNames m =
      (contents .nested enumNames m).flattened (m.enums.map EnumDecl.lowered) := by
  cases m with
  | field f =>
      rw [contents, contents, Member.enums, Contents.flattened, Message.flattenedIn]
      rfl
  | enum e =>
      rw [contents, contents, Member.enums, Contents.flattened, Message.flattenedIn]
      rfl
  | message name line body =>
      rw [contents, contents, Member.enums, contentsIn_flatten enumNames body]
      simp [Contents.enclosed, Contents.flattened, Message.flattenedIn, Message.flattened]

theorem contentsIn_flatten (enumNames : List String) (ms : List Member) :
    contentsIn .flatten enumNames ms =
      (contentsIn .nested enumNames ms).flattened ((Member.enumsIn ms).map EnumDecl.lowered) := by
  cases ms with
  | nil =>
      rw [contentsIn, contentsIn, Member.enumsIn, Contents.flattened, Contents.empty,
        Message.flattenedIn]
      rfl
  | cons m ms =>
      rw [contentsIn, contentsIn, Member.enumsIn, contents_flatten enumNames m,
        contentsIn_flatten enumNames ms]
      ext1 <;> simp [Contents.flattened, Message.flattenedIn_append]

end

/-! ### Enums in either mode -/

/-- The enums in contents, those nested in messages included. -/
def Contents.allEnums (c : Contents) : List Enum := c.enums ++ Message.allEnumsIn c.messages

/-- Two contents in a row have the enums of the one and of the other, if in another order. -/
theorem Contents.allEnums_append (a b : Contents) :
    (a ++ b).allEnums.Perm (a.allEnums ++ b.allEnums) := by
  have hswap : (b.enums ++ Message.allEnumsIn a.messages).Perm
      (Message.allEnumsIn a.messages ++ b.enums) := List.perm_append_comm
  simpa [allEnums, Message.allEnumsIn_append] using
    (hswap.append_right (Message.allEnumsIn b.messages)).append_left a.enums

/-- A message has the enums of its contents, or leaves them beside it. -/
theorem Contents.allEnums_enclosed (c : Contents) (nesting : Nesting) (name : String) :
    (c.enclosed nesting name).allEnums = c.allEnums := by
  cases nesting <;>
    simp [enclosed, allEnums, Message.allEnumsIn_append, Message.allEnumsIn, Message.allEnums]

mutual

/-- A member adds every enum in it once. -/
theorem perm_allEnums_contents {nesting : Nesting} (enumNames : List String) (m : Member) :
    (m.enums.map EnumDecl.lowered).Perm (contents nesting enumNames m).allEnums := by
  cases m with
  | field f => simp [Member.enums, contents, Contents.allEnums, Message.allEnumsIn]
  | enum e => simp [Member.enums, contents, Contents.allEnums, Message.allEnumsIn]
  | message name line body =>
      rw [Member.enums, contents, Contents.allEnums_enclosed]
      exact perm_allEnums_contentsIn enumNames body

theorem perm_allEnums_contentsIn {nesting : Nesting} (enumNames : List String)
    (ms : List Member) :
    ((Member.enumsIn ms).map EnumDecl.lowered).Perm (contentsIn nesting enumNames ms).allEnums := by
  cases ms with
  | nil => simp [Member.enumsIn, contentsIn, Contents.empty, Contents.allEnums, Message.allEnumsIn]
  | cons m ms =>
      rw [Member.enumsIn, contentsIn, List.map_append]
      exact ((perm_allEnums_contents enumNames m).append
        (perm_allEnums_contentsIn enumNames ms)).trans (Contents.allEnums_append _ _).symm

end

/-- A file grows in flatten mode as in nested mode, with every definition at the top. -/
theorem grown_flatten (name edition : String) (enumNames : List String) (ds : List Decl) :
    grown ⟨name, enumNames, .flatten⟩ (.empty name edition) ds =
      { grown ⟨name, enumNames, .nested⟩ (.empty name edition) ds with
        messages := Message.flattenedIn
          (grown ⟨name, enumNames, .nested⟩ (.empty name edition) ds).messages
        enums := (Member.enumsIn (ds.filterMap Decl.member?)).map EnumDecl.lowered } := by
  simp [grown, File.empty, contentsIn_flatten, Contents.flattened]

end Lowering

/-! ### Files -/

/-- **Flatten mode is the flattening of nested mode.**  It ends with the same error, or with
the same descriptor but for its definitions: the messages of every depth, each behind those
nested in it and without definitions of its own, and the enums of every depth in the order
of the text, which are the enums of the nested descriptor, each as often as there. -/
theorem Schema.lower_flatten_eq (s : Schema) (name : String) (enumNames : List String) :
    s.lower name enumNames .flatten =
      (s.lower name enumNames .nested).map (fun f =>
        { f with
          messages := Message.flattenedIn f.messages
          enums := s.enums.map EnumDecl.lowered }) ∧
    ∀ f, s.lower name enumNames .nested = .ok f →
      (s.enums.map EnumDecl.lowered).Perm f.allEnums := by
  constructor
  · rw [lower_eq, lower_eq, Lowering.grown_flatten]
    cases s.faults name <;> rfl
  · intro f hf
    obtain ⟨hmessages, henums⟩ := contents_of_lower hf
    rw [File.allEnums, hmessages, henums]
    exact Lowering.perm_allEnums_contentsIn enumNames s.members

/-- Messages three deep, with enums before them, behind them and at the top. -/
def nest : Schema where
  edition := "proto3"
  decls := [
    .message "A" 1 [
      .message "B" 2 [
        .enum ⟨"X", 3, []⟩,
        .message "C" 4 [],
        .field ⟨none, .named ["C"], "c", 1, 5⟩],
      .enum ⟨"Y", 6, []⟩,
      .field ⟨none, .named ["X"], "x", 1, 7⟩],
    .enum ⟨"Z", 8, []⟩]

/-- The innermost message comes first; the enums of the nested descriptor, taken from the
outside in, come in another order than in the text. -/
theorem nest_lower_flatten_eq :
    let c : Field := ⟨"c", 1, .message, some "C", .optional⟩
    let x : Field := ⟨"x", 1, .enum, some "X", .optional⟩
    let b : Message := ⟨"B", [c], [⟨"C", [], [], []⟩], [⟨"X", []⟩]⟩
    let f : File := { File.empty "n" "proto3" with
      messages := [⟨"A", [x], [b], [⟨"Y", []⟩]⟩], enums := [⟨"Z", []⟩] }
    nest.lower "n" nest.enumNames .nested = .ok f ∧
    nest.lower "n" nest.enumNames .flatten = .ok { f with
      messages := [⟨"C", [], [], []⟩, ⟨"B", [c], [], []⟩, ⟨"A", [x], [], []⟩]
      enums := [⟨"X", []⟩, ⟨"Y", []⟩, ⟨"Z", []⟩] } ∧
    f.allEnums.map (·.name) = ["Z", "Y", "X"] ∧
    (nest.enums.map EnumDecl.lowered).Perm f.allEnums := by
  intro c x b f
  have hf : nest.lower "n" nest.enumNames .nested = .ok f :=
    Fallible.toOption_eq_some.mp (by decide +kernel)
  obtain ⟨hflatten, hperm⟩ := nest.lower_flatten_eq "n" nest.enumNames
  refine ⟨hf, ?_, rfl, hperm f hf⟩
  rw [hflatten, hf]
  rfl

end Schemata
