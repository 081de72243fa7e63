/-
Running a program along a list of tokens.

A run stands at a place of the list and has the moves that follow.  Where it stands is only
counted: a place behind the list is read as that of its last token, and going on from the last
token leads nowhere, so a run that goes astray would not show it.

A careful program does not go astray.  As long as it runs it is careful at the token where it
stands, and no step leads past the first end of input.  Nothing it does then depends on what
stands behind that, and as each call goes on before it calls again, the run ends, with what the
program reads.
-/
import Mathlib.Logic.Relation
import Schemata.Loading
import Schemata.Proofs.Cursor.Careful
import Schemata.Proofs.Cursor.Readers
import Schemata.Proofs.Grammar.Deviation

namespace Schemata

namespace Cursor

open Program

variable {α β : Type} {ts : List Located}

/-- Where a run stands: the moves that follow, and how many tokens the cursor has left behind. -/
structure Point (α : Type) : Type 1 where
  program : Program α
  pos : Nat

/-- The tokens from a place on.  A place behind the list is read as that of its last token. -/
def ahead (ts : List Located) (pos : Nat) : List Located := ts.drop (min pos (ts.length - 1))

/-- What a run does next.  A run that is done or refused stays so. -/
def step (ts : List Located) : Point α → Point α
  | ⟨.done a, pos⟩ => ⟨.done a, pos⟩
  | ⟨.refused fault, pos⟩ => ⟨.refused fault, pos⟩
  | ⟨.looking next, pos⟩ => ⟨next (frontToken (ahead ts pos)), pos⟩
  | ⟨.lining next, pos⟩ => ⟨next (frontLine (ahead ts pos)), pos⟩
  | ⟨.advancing next, pos⟩ => ⟨next, if pos < ts.length - 1 then pos + 1 else pos⟩
  | ⟨.calling r next, pos⟩ => ⟨r.body >>= next, pos⟩

/-- A run that stands at the one point comes to the other. -/
def Reaches (ts : List Located) : Point α → Point α → Prop :=
  Relation.ReflTransGen fun p q => step ts p = q

/-! ### The end of input -/

/-- The place of the first end of input; behind the list if there is none. -/
def eofPlace (ts : List Located) : Nat := ts.findIdx fun t => Reader.isEof t.token

/-- The list through its first end of input. -/
def throughEof (ts : List Located) : List Located := ts.take (eofPlace ts + 1)

theorem frontToken_eofPlace (ts : List Located) : frontToken (ts.drop (eofPlace ts)) = .eof := by
  by_cases h : eofPlace ts < ts.length
  · have heof := List.findIdx_getElem (w := h)
    rw [List.drop_eq_getElem_cons h]
    exact of_decide_eq_true heof
  · rw [List.drop_eq_nil_of_le (by omega)]
    rfl

theorem eofPlace_lt (h : ts.getLast?.map (·.token) = some .eof) : eofPlace ts < ts.length := by
  obtain ⟨t, ht, heof⟩ := Option.map_eq_some_iff.mp h
  exact List.findIdx_lt_length.mpr ⟨t, List.mem_of_getLast? ht, by simp [Reader.isEof, heof]⟩

/-- A place that is not past the first end of input and shows another token is before it. -/
theorem lt_eofPlace {pos : Nat} (hle : pos ≤ eofPlace ts) (h : frontToken (ts.drop pos) ≠ .eof) :
    pos < eofPlace ts := by
  refine Nat.lt_of_le_of_ne hle fun heq => h ?_
  rw [heq, frontToken_eofPlace]

theorem ahead_of_lt {pos : Nat} (h : pos < ts.length) : ahead ts pos = ts.drop pos := by
  rw [ahead, Nat.min_eq_left (by omega)]

theorem ahead_of_le {pos : Nat} (hlt : eofPlace ts < ts.length) (hle : pos ≤ eofPlace ts) :
    ahead ts pos = ts.drop pos := ahead_of_lt (Nat.lt_of_le_of_lt hle hlt)

/-! ### What every step keeps -/

/-- A careful run: it is careful at the token where it stands and has gone over no end of input. -/
structure OnCourse (ts : List Located) (p : Point α) : Prop where
  le : p.pos ≤ eofPlace ts
  careful : p.program.CarefulAt true true (frontToken (ts.drop p.pos))

namespace OnCourse

variable {p q : Point α}

/-- Where a careful run goes on, the first end of input is still ahead. -/
theorem lt_of_advancing {next : Program α} (h : OnCourse ts p)
    (hnext : p.program = .advancing next) : p.pos < eofPlace ts := by
  have hcareful := h.careful
  rw [hnext] at hcareful
  exact lt_eofPlace h.le hcareful.1

/-- **Every step keeps it.** -/
theorem of_step (hlt : eofPlace ts < ts.length) (h : OnCourse ts p) : OnCourse ts (step ts p) := by
  obtain ⟨program, pos⟩ := p
  have hpos : ahead ts pos = ts.drop pos := ahead_of_le hlt h.le
  cases program with
  | done a => exact h
  | refused fault => exact h
  | looking next =>
      refine ⟨h.le, ?_⟩
      rw [step, hpos]
      exact h.careful
  | lining next =>
      refine ⟨h.le, ?_⟩
      rw [step, hpos]
      exact h.careful _
  | advancing next =>
      have hbefore : pos < eofPlace ts := h.lt_of_advancing rfl
      rw [step, if_pos (by omega)]
      exact ⟨hbefore, h.careful.2 _⟩
  | calling r next =>
      exact ⟨h.le, (careful_body r _).moved.bind h.careful.2⟩

/-- **It holds as long as the run goes on.** -/
theorem of_reaches (hlt : eofPlace ts < ts.length) (h : OnCourse ts p) (hreach : Reaches ts p q) :
    OnCourse ts q := by
  induction hreach with
  | refl => exact h
  | tail _ hstep ih => exact hstep ▸ ih.of_step hlt

end OnCourse

/-! ### What stands behind the end of input -/

theorem length_throughEof (hlt : eofPlace ts < ts.length) :
    (throughEof ts).length = eofPlace ts + 1 := by
  rw [throughEof, List.length_take]
  omega

/-- Up to the first end of input the lists have the same tokens. -/
theorem head?_ahead_throughEof (hlt : eofPlace ts < ts.length) {pos : Nat}
    (hle : pos ≤ eofPlace ts) : (ahead (throughEof ts) pos).head? = (ahead ts pos).head? := by
  have hthrough : pos < (throughEof ts).length := by
    rw [length_throughEof hlt]
    omega
  rw [ahead_of_lt hthrough, ahead_of_le hlt hle, List.head?_drop, List.head?_drop, throughEof,
    List.getElem?_take_of_lt (by omega)]

/-- A careful run does not tell what stands behind the first end of input. -/
theorem OnCourse.step_throughEof (hlt : eofPlace ts < ts.length) {p : Point α}
    (h : OnCourse ts p) : step (throughEof ts) p = step ts p := by
  obtain ⟨program, pos⟩ := p
  have hhead := head?_ahead_throughEof hlt h.le
  cases program with
  | done a => rfl
  | refused fault => rfl
  | looking next => rw [step, step, Reader.frontToken_congr hhead]
  | lining next => rw [step, step, Reader.frontLine_congr hhead]
  | advancing next =>
      have hbefore : pos < eofPlace ts := h.lt_of_advancing rfl
      have hlength := length_throughEof hlt
      rw [step, step, if_pos (by omega), if_pos (by omega)]
  | calling r next => rfl

/-- Whatever stands there, the run passes the same points. -/
theorem OnCourse.reaches_throughEof (hlt : eofPlace ts < ts.length) {p q : Point α}
    (h : OnCourse ts p) : Reaches (throughEof ts) p q ↔ Reaches ts p q := by
  constructor
  · intro hreach
    induction hreach with
    | refl => exact .refl
    | tail _ hstep ih =>
        exact ih.tail (((h.of_reaches hlt ih).step_throughEof hlt).symm.trans hstep)
  · intro hreach
    induction hreach with
    | refl => exact .refl
    | tail hbefore hstep ih =>
        exact ih.tail (((h.of_reaches hlt hbefore).step_throughEof hlt).trans hstep)

/-! ### What a run comes to -/

/-- What follows when a reader has come to its end. -/
def after (next : α → Program β) : Except Refusal (α × List Located) → Program β
  | .ok (a, _) => next a
  | .error r => .refused r.fault

/-- From a place the run of a program, whatever follows it, comes to what the program reads
there, and to where that leaves the list. -/
def Comes (ts : List Located) (p : Program α) (pos : Nat) : Prop :=
  ∃ stop, pos ≤ stop ∧ stop ≤ eofPlace ts ∧
    Reader.left (p.reads (ts.drop pos)) = ts.drop stop ∧
    ∀ {β : Type} (next : α → Program β),
      Reaches ts ⟨p >>= next, pos⟩ ⟨after next (p.reads (ts.drop pos)), stop⟩

namespace Comes

variable {p q : Program α} {pos pos' : Nat}

/-- A step that what is read does not tell. -/
theorem head (hle : pos ≤ pos') (hreads : p.reads (ts.drop pos) = q.reads (ts.drop pos'))
    (hstep : ∀ {β : Type} (next : α → Program β), step ts ⟨p >>= next, pos⟩ = ⟨q >>= next, pos'⟩)
    (h : Comes ts q pos') : Comes ts p pos := by
  obtain ⟨stop, hpos', hstop, hrest, hreach⟩ := h
  refine ⟨stop, Nat.le_trans hle hpos', hstop, hreads ▸ hrest, fun next => ?_⟩
  rw [hreads]
  exact (hreach next).head (hstep next)

/-- A call comes to what is called, and the run goes on from there. -/
theorem calling {r : Routine β} {next : β → Program α} (hbody : Comes ts r.body pos)
    (hnext : ∀ b stop, pos ≤ stop → stop ≤ eofPlace ts → Comes ts (next b) stop) :
    Comes ts (.calling r next) pos := by
  obtain ⟨stop, hle, hstop, hrest, hreach⟩ := hbody
  have hreads : (Program.calling r next).reads =
      r.body.reads >>= fun b => (next b).reads := by rw [reads, reads_body]
  rw [Comes, hreads]
  cases hb : r.body.reads (ts.drop pos) with
  | error e =>
      rw [hb] at hrest hreach
      rw [Reader.bind_of_error hb]
      exact ⟨stop, hle, hstop, hrest, fun more => (hreach fun b => next b >>= more).head rfl⟩
  | ok v =>
      obtain ⟨b, mid⟩ := v
      rw [hb] at hrest hreach
      obtain rfl : mid = ts.drop stop := hrest
      obtain ⟨stop', hle', hstop', hrest', hreach'⟩ := hnext b stop hle hstop
      rw [Reader.bind_of_ok hb]
      refine ⟨stop', Nat.le_trans hle hle', hstop', hrest', fun more => ?_⟩
      exact ((hreach fun b => next b >>= more).trans (hreach' more)).head rfl

end Comes

section

variable (hlt : eofPlace ts < ts.length)

include hlt

/-- The run of a program comes to what it reads if runs from further on do, and if calls do that
are made before it has gone on. -/
theorem comes_of {p : Program α} {pos left : Nat} {b c : Bool}
    (hbehind : ∀ {α : Type} {p : Program α} {pos : Nat}, OnCourse ts ⟨p, pos⟩ →
      eofPlace ts - pos < left → Comes ts p pos)
    (hcalls : b = true → ∀ {α : Type} (r : Routine α) {pos : Nat}, pos ≤ eofPlace ts →
      eofPlace ts - pos ≤ left → Comes ts r.body pos)
    (hle : pos ≤ eofPlace ts) (hleft : eofPlace ts - pos ≤ left)
    (h : p.CarefulAt b c (frontToken (ts.drop pos))) : Comes ts p pos := by
  induction p generalizing pos with
  | done a => exact ⟨pos, Nat.le_refl _, hle, rfl, fun _ => .refl⟩
  | refused fault => exact ⟨pos, Nat.le_refl _, hle, rfl, fun _ => .refl⟩
  | looking next ih =>
      refine (ih _ hle hleft h).head (Nat.le_refl _) ?_ fun more => ?_
      · rfl
      · rw [← ahead_of_le hlt hle]
        rfl
  | lining next ih =>
      refine (ih (frontLine (ts.drop pos)) hle hleft (h _)).head (Nat.le_refl _) ?_ fun more => ?_
      · rfl
      · rw [← ahead_of_le hlt hle]
        rfl
  | advancing next ih =>
      have hbefore : pos < eofPlace ts := lt_eofPlace hle h.1
      have hnext : Comes ts next (pos + 1) := hbehind ⟨hbefore, (h.2 _).moved⟩ (by omega)
      refine hnext.head (Nat.le_succ pos) ?_ fun more => ?_
      · show next.reads (ts.drop pos).tail = _
        rw [List.tail_drop]
      · show (⟨next >>= more, if pos < ts.length - 1 then pos + 1 else pos⟩ : Point _) = _
        rw [if_pos (by omega)]
  | calling r next ih =>
      obtain rfl := h.1
      refine (hcalls rfl r hle hleft).calling fun a stop hstop hend => ?_
      exact ih a hend (by omega) (h.2 a _)

/-- **The run of a careful program comes to what it reads.** -/
theorem OnCourse.comes {p : Program α} {pos : Nat} (h : OnCourse ts ⟨p, pos⟩) : Comes ts p pos := by
  -- What is called has gone on before it calls again, so it only needs the places further on;
  -- with that, whatever else there is may call at once.
  induction hleft : eofPlace ts - pos using Nat.strongRecOn generalizing α p pos with
  | ind left ih =>
      have hbehind : ∀ {α : Type} {p : Program α} {pos : Nat}, OnCourse ts ⟨p, pos⟩ →
          eofPlace ts - pos < left → Comes ts p pos := fun h hless => ih _ hless h rfl
      have hcalls : ∀ {α : Type} (r : Routine α) {pos : Nat}, pos ≤ eofPlace ts →
          eofPlace ts - pos ≤ left → Comes ts r.body pos := fun r pos hle hleft =>
        comes_of (b := false) hlt hbehind nofun hle hleft (careful_body r _)
      exact comes_of hlt hbehind (fun _ => hcalls) h.le (Nat.le_of_eq hleft) h.careful

end

/-! ### Whole lists -/

/-- What a run has come to, in the file `name`; nothing as long as there are moves left. -/
def Point.answer? (name : String) (ts : List Located) : Point α → Option (Except Error α)
  | ⟨.done a, _⟩ => some (.ok a)
  | ⟨.refused fault, pos⟩ => some (.error (Refusal.error name ⟨fault, ahead ts pos⟩))
  | _ => none

/-- The first token of a list, with everything to be read. -/
def start : Point Schema := ⟨schema, 0⟩

theorem onCourse_start (ts : List Located) : OnCourse ts start := ⟨Nat.zero_le _, careful_schema _⟩

section

variable {name : String} {p q s : Point α} {x y : Except Error α}

/-- What has come to an answer stays there. -/
theorem eq_of_reaches (hx : p.answer? name ts = some x) (h : Reaches ts p q) : q = p := by
  have hstep : step ts p = p := by
    obtain ⟨program, pos⟩ := p
    cases program with
    | done a => rfl
    | refused fault => rfl
    | _ => cases hx
  induction h with
  | refl => rfl
  | tail _ hnext ih => rw [← hnext, ih, hstep]

/-- A run comes to one answer. -/
theorem answer_unique (hp : Reaches ts s p) (hq : Reaches ts s q)
    (hx : p.answer? name ts = some x) (hy : q.answer? name ts = some y) : x = y := by
  have hsame : p = q := by
    rcases Relation.ReflTransGen.total_of_right_unique (fun _ _ _ h h' => h.symm.trans h') hp hq
      with h | h
    · exact (eq_of_reaches hx h).symm
    · exact eq_of_reaches hy h
  subst hsame
  exact Option.some.inj (hx.symm.trans hy)

/-- A careful run comes to the same answer whatever stands behind the first end of input. -/
theorem OnCourse.answer?_throughEof (hlt : eofPlace ts < ts.length) (h : OnCourse ts p) :
    p.answer? name (throughEof ts) = p.answer? name ts := by
  obtain ⟨program, pos⟩ := p
  have hhead := head?_ahead_throughEof hlt h.le
  cases program with
  | refused fault =>
      rw [Point.answer?, Point.answer?, Refusal.error, Refusal.error, Refusal.line, Refusal.line,
        Refusal.message, Refusal.message, Reader.frontLine_congr hhead,
        Reader.frontToken_congr hhead]
  | _ => rfl

end

theorem getLast?_throughEof (hlt : eofPlace ts < ts.length) :
    (throughEof ts).getLast?.map (·.token) = some .eof := by
  have heof := frontToken_eofPlace ts
  rw [List.drop_eq_getElem_cons hlt] at heof
  have heof : ts[eofPlace ts].token = .eof := heof
  rw [throughEof, List.getLast?_take]
  simp [List.getElem?_eq_getElem hlt, heof]

/-- The run along a list that ends with the end of input comes to the tree of the list, or to
the error it has. -/
theorem exists_answer (name : String) (h : ts.getLast?.map (·.token) = some .eof) :
    ∃ p, Reaches ts start p ∧ p.answer? name ts = some (schemaOf name ts) := by
  have hlt := eofPlace_lt h
  have hstart : (⟨schema >>= .done, 0⟩ : Point Schema) = start := by rw [bind_done, start]
  obtain ⟨last, hlast, heof⟩ := Option.map_eq_some_iff.mp h
  have hread : Schema.read ts = (Reader.schema ts).map Prod.fst := by
    rw [Schema.read, hlast]
    exact if_pos heof
  obtain ⟨stop, -, hstop, hrest, hreach⟩ := (onCourse_start ts).comes hlt
  have hreach : Reaches ts start ⟨after .done (schema.reads (ts.drop 0)), stop⟩ :=
    hstart ▸ hreach .done
  rw [reads_schema, List.drop_zero] at hrest
  rw [reads_schema, List.drop_zero] at hreach
  refine ⟨_, hreach, ?_⟩
  rw [schemaOf, hread]
  cases hs : Reader.schema ts with
  | ok v => rfl
  | error r =>
      rw [hs] at hrest
      rw [after, Point.answer?, ahead_of_le hlt hstop, ← hrest]
      rfl

end Cursor

open Cursor

/-- **Reading stops at the first end of input.**  On a list that ends with the end of input, and
may have it before as well, reading comes to what it comes to on the list through the first one,
to the line of an error.  Wherever its run stands is a place of the list, and none past the first
end of input; where the run goes on, that is still ahead; it passes the same points if the list
is cut there; and it comes to what is read. -/
theorem schemaOf_stops_at_eof (name : String) {ts : List Located}
    (h : ts.getLast?.map (·.token) = some .eof) :
    schemaOf name ts = schemaOf name (throughEof ts) ∧
    (∀ p, Reaches ts start p → p.pos < ts.length ∧ p.pos ≤ eofPlace ts ∧
      ∀ next, p.program = .advancing next → p.pos < eofPlace ts) ∧
    (∀ p, Reaches (throughEof ts) start p ↔ Reaches ts start p) ∧
    ∃ p, Reaches ts start p ∧ p.answer? name ts = some (schemaOf name ts) := by
  have hlt := eofPlace_lt h
  have hcourse := onCourse_start ts
  obtain ⟨p, hp, hanswer⟩ := exists_answer name h
  refine ⟨?_, ?_, fun p => hcourse.reaches_throughEof hlt, p, hp, hanswer⟩
  · obtain ⟨q, hq, hcut⟩ := exists_answer name (getLast?_throughEof hlt)
    have hq := (hcourse.reaches_throughEof hlt).mp hq
    rw [(hcourse.of_reaches hlt hq).answer?_throughEof hlt] at hcut
    exact answer_unique hp hq hanswer hcut
  · intro p hp
    have hpoint := hcourse.of_reaches hlt hp
    exact ⟨Nat.lt_of_le_of_lt hpoint.le hlt, hpoint.le, fun _ => hpoint.lt_of_advancing⟩

/-- The tokens of a text that ends in the body of a message, and of the rest of the message
behind its end. -/
def resumedTokens : List Located :=
  [.keyword .edition, .punct .equals, .str "proto3", .punct .semicolon,
    .keyword .message, .ident "M", .punct .openBrace, .eof,
    .punct .closeBrace, .eof].map (⟨·, .start⟩)

/-- The message is not closed by what stands behind the end of the text. -/
theorem schemaOf_stops_at_eof_resumed :
    resumedTokens.getLast?.map (·.token) = some .eof ∧
    (schemaOf "t.proto" resumedTokens).isOk = false ∧
    schemaOf "t.proto" resumedTokens = schemaOf "t.proto" (resumedTokens.take 8) ∧
    (∀ p, Reaches resumedTokens start p → p.pos ≤ 7) ∧
    ∃ p, Reaches resumedTokens start p ∧
      p.answer? "t.proto" resumedTokens = some (schemaOf "t.proto" resumedTokens) := by
  have hlast : resumedTokens.getLast?.map (·.token) = some .eof := rfl
  have hplace : eofPlace resumedTokens = 7 := by decide
  obtain ⟨hcut, hpoints, -, hanswer⟩ := schemaOf_stops_at_eof "t.proto" hlast
  rw [throughEof, hplace] at hcut
  exact ⟨hlast, by decide +kernel, hcut, fun p hp => hplace ▸ (hpoints p hp).2.1, hanswer⟩

end Schemata
