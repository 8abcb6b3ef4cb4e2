import Xv6.Console.Machine
import Xv6.Lib.FreeRun
import Mathlib.Data.List.Induction

/-!
# The line discipline

* `LineEditor` : what the console is for: a stream of committed characters, of which readers have taken the first ones,
  and the line that is being edited;
* `LineEditor.step` : a character is typed, or a reader takes the next character of the stream;
* `ConsAct.events` : what a step of the console is to the editor;
* `EditorOk s ed` : the ring and its three counters hold the editor's state;
* `console_line_discipline` : the events of every run of the console are a run of the editor.
-/

namespace Xv6
open Automaton FreeRun Function

/-! ## The editor -/

structure LineEditor where
  /-- The committed characters. -/
  stream : List UInt8
  /-- How many of them readers have taken. -/
  taken : Nat
  /-- The characters that can still be erased. -/
  line : List UInt8

inductive EditorEvent where
  | typed (c : UInt8)
  | taken

namespace LineEditor

def init : LineEditor := ⟨[], 0, []⟩

def unread (ed : LineEditor) : List UInt8 := ed.stream.drop ed.taken

/-- How many characters have been stored and not been taken. -/
def buffered (ed : LineEditor) : Nat := ed.unread.length + ed.line.length

/-- A plain character ends the line if it is a newline or `^D`, or the 128th that is buffered. -/
def put (ed : LineEditor) (c : UInt8) : LineEditor :=
  if c = newline ∨ c = ctrlD ∨ ed.buffered + 1 = inputBufSize then
    { ed with stream := ed.stream ++ (ed.line ++ [c]), line := [] }
  else { ed with line := ed.line ++ [c] }

def type (ed : LineEditor) (c : UInt8) : LineEditor :=
  if c = 0 ∨ c = ctrlP then ed
  else if c = ctrlU then { ed with line := [] }
  else if c = ctrlH ∨ c = del then { ed with line := ed.line.dropLast }
  else if ed.buffered = inputBufSize then ed
  else ed.put (if c = carriageReturn then newline else c)

def step (ed : LineEditor) : EditorEvent → Option LineEditor
  | .typed c => some (ed.type c)
  | .taken => if ed.taken < ed.stream.length then some { ed with taken := ed.taken + 1 } else none

end LineEditor

variable {n : Nat} {s t : Console n} {p : Fin n} {ed : LineEditor}

/-- The ring holds what the editor has, and readers have what has been taken. -/
structure EditorOk (s : Console n) (ed : LineEditor) : Prop where
  received : s.received = ed.stream.take ed.taken
  taken : ed.taken ≤ ed.stream.length
  r : s.r = BitVec.ofNat 32 ed.taken
  w : s.w = BitVec.ofNat 32 (ed.taken + ed.unread.length)
  e : s.e = BitVec.ofNat 32 (ed.taken + ed.buffered)
  room : ed.buffered ≤ inputBufSize
  cells : Holds s.buf inputBufSize ed.taken (ed.unread ++ ed.line)
  plain : newline ∉ ed.line

namespace EditorOk

theorem init (buf : Nat → UInt8) : EditorOk (.init buf : Console n) .init where
  received := rfl
  taken := Nat.le_refl _
  r := rfl
  w := rfl
  e := rfl
  room := Nat.zero_le _
  cells := Holds.nil _ _ _
  plain := List.not_mem_nil

theorem count_e (h : EditorOk s ed) : (s.e - s.r).toNat = ed.buffered := by
  rw [h.e, h.r, toNat_sub_ofNat (Nat.lt_of_le_of_lt h.room (by decide))]

theorem unread_le (ed : LineEditor) : ed.unread.length ≤ ed.buffered := Nat.le_add_right ..

theorem count_w (h : EditorOk s ed) : (s.w - s.r).toNat = ed.unread.length := by
  rw [h.w, h.r, toNat_sub_ofNat (Nat.lt_of_le_of_lt ((unread_le ed).trans h.room) (by decide))]

theorem r_eq_w_iff (h : EditorOk s ed) : s.r = s.w ↔ ed.unread = [] := by
  rw [h.r, h.w, eq_comm, ofNat_eq_add_iff (Nat.lt_of_le_of_lt ((unread_le ed).trans h.room) (by decide)),
    List.length_eq_zero_iff]

theorem line_lt (h : EditorOk s ed) : ed.line.length < 2 ^ 32 :=
  Nat.lt_of_le_of_lt ((Nat.le_add_left ..).trans h.room) (by decide)

theorem e_eq_w_iff (h : EditorOk s ed) : s.e = s.w ↔ ed.line = [] := by
  rw [h.e, h.w, LineEditor.buffered, ← Nat.add_assoc, ofNat_eq_add_iff h.line_lt, List.length_eq_zero_iff]

/-- What does not touch the ring keeps the relation. -/
theorem congr (h : EditorOk s ed) (hreceived : t.received = s.received) (hr : t.r = s.r) (hw : t.w = s.w)
    (he : t.e = s.e) (hbuf : t.buf = s.buf) : EditorOk t ed :=
  ⟨hreceived ▸ h.received, h.taken, hr ▸ h.r, hw ▸ h.w, he ▸ h.e, h.room, hbuf ▸ h.cells, h.plain⟩

/-! ## Erasing -/

/-- The line gets shorter at its end, and `cons.e` goes back. -/
theorem shrink {xs ys : List UInt8} {e : BitVec 32} (h : EditorOk s ed) (hline : ed.line = xs ++ ys)
    (he : e = BitVec.ofNat 32 (ed.taken + (ed.unread.length + xs.length))) :
    EditorOk { s with e := e } { ed with line := xs } where
  received := h.received
  taken := h.taken
  r := h.r
  w := h.w
  e := he
  room := by
    have hroom := h.room
    rw [LineEditor.buffered, hline, List.length_append] at hroom
    show ed.unread.length + xs.length ≤ _
    omega
  cells := by
    have hcells := h.cells
    rw [hline, ← List.append_assoc] at hcells
    exact hcells.take
  plain hc := h.plain (hline ▸ List.mem_append_left _ hc)

/-- The loop of `^U` gives up the whole line: there is no newline in it. -/
theorem killLine_eq {buf : Nat → UInt8} {k : Nat} {xs line : List UInt8} (hroom : line.length < 2 ^ 32)
    (hplain : newline ∉ line) (hcells : Holds buf inputBufSize k (xs ++ line)) :
    Console.killLine buf (BitVec.ofNat 32 (k + xs.length)) line.length
      (BitVec.ofNat 32 (k + xs.length + line.length)) = BitVec.ofNat 32 (k + xs.length) := by
  induction line using List.reverseRecOn with
  | nil => rfl
  | append_singleton line c ih =>
    rw [List.length_append, List.length_singleton] at hroom ⊢
    rw [← List.append_assoc] at hcells
    have hne : BitVec.ofNat 32 (k + xs.length + (line.length + 1)) ≠ BitVec.ofNat 32 (k + xs.length) := by
      rw [Ne, ofNat_eq_add_iff hroom]
      omega
    have hback : BitVec.ofNat 32 (k + xs.length + (line.length + 1)) - 1 =
        BitVec.ofNat 32 (k + xs.length + line.length) := ofNat_succ_sub_one
    have hlast : buf ((BitVec.ofNat 32 (k + xs.length + line.length)).toNat % inputBufSize) ≠ newline := by
      rw [toNat_mod_ofNat (by decide), Nat.add_assoc, ← List.length_append, hcells.last]
      rintro rfl
      exact hplain (List.mem_append_right _ (List.mem_singleton.mpr rfl))
    rw [Console.killLine, hback, if_pos ⟨hne, hlast⟩]
    exact ih (by omega) (fun hc => hplain (List.mem_append_left _ hc)) hcells.take

theorem killLine (h : EditorOk s ed) :
    EditorOk { s with e := Console.killLine s.buf s.w (s.e - s.w).toNat s.e } { ed with line := [] } := by
  refine h.shrink rfl ?_
  have hcount : (s.e - s.w).toNat = ed.line.length := by
    rw [h.e, h.w, LineEditor.buffered, ← Nat.add_assoc, toNat_sub_ofNat h.line_lt]
  rw [hcount, h.w, h.e, LineEditor.buffered, ← Nat.add_assoc]
  exact killLine_eq h.line_lt h.plain h.cells

theorem backspace (h : EditorOk s ed) (hne : s.e ≠ s.w) :
    EditorOk { s with e := s.e - 1 } { ed with line := ed.line.dropLast } := by
  have hline : ed.line ≠ [] := fun hc => hne (h.e_eq_w_iff.mpr hc)
  have hlen : 0 < ed.line.length := List.length_pos_iff.mpr hline
  refine h.shrink (List.dropLast_append_getLast hline).symm ?_
  rw [h.e, LineEditor.buffered, List.length_dropLast,
    show ed.taken + (ed.unread.length + ed.line.length) =
      ed.taken + (ed.unread.length + (ed.line.length - 1)) + 1 by omega]
  exact ofNat_succ_sub_one

/-! ## Storing -/

theorem cells_push (h : EditorOk s ed) (hlt : ed.buffered < inputBufSize) (c : UInt8) :
    Holds (update s.buf (s.e.toNat % inputBufSize) c) inputBufSize ed.taken (ed.unread ++ (ed.line ++ [c])) := by
  have hcell : s.e.toNat % inputBufSize = (ed.taken + (ed.unread ++ ed.line).length) % inputBufSize := by
    rw [h.e, toNat_mod_ofNat (by decide), List.length_append]
    rfl
  rw [hcell, ← List.append_assoc]
  exact h.cells.push (by rw [List.length_append]; exact hlt)

theorem e_succ (h : EditorOk s ed) : s.e + 1 = BitVec.ofNat 32 (ed.taken + (ed.buffered + 1)) := by
  rw [h.e, ← Nat.add_assoc, BitVec.ofNat_add _ 1]
  rfl

/-- A character is stored behind the line. -/
theorem append (h : EditorOk s ed) (hlt : ed.buffered < inputBufSize) {c : UInt8} (hc : c ≠ newline) :
    EditorOk { s with buf := update s.buf (s.e.toNat % inputBufSize) c, e := s.e + 1 }
      { ed with line := ed.line ++ [c] } where
  received := h.received
  taken := h.taken
  r := h.r
  w := h.w
  e := by
    show s.e + 1 = BitVec.ofNat 32 (ed.taken + (ed.unread.length + (ed.line ++ [c]).length))
    rw [List.length_append, ← Nat.add_assoc ed.unread.length]
    exact h.e_succ
  room := by
    show ed.unread.length + (ed.line ++ [c]).length ≤ _
    rw [List.length_append, ← Nat.add_assoc]
    exact hlt
  cells := h.cells_push hlt c
  plain hmem := by
    rcases List.mem_append.mp hmem with hmem | hmem
    · exact h.plain hmem
    · exact hc (List.mem_singleton.mp hmem).symm

/-- A character is stored, and the line is committed. -/
theorem commit (h : EditorOk s ed) (hlt : ed.buffered < inputBufSize) (c : UInt8) :
    EditorOk { s with buf := update s.buf (s.e.toNat % inputBufSize) c, e := s.e + 1, w := s.e + 1 }
      { ed with stream := ed.stream ++ (ed.line ++ [c]), line := [] } := by
  have hunread : (ed.stream ++ (ed.line ++ [c])).drop ed.taken = ed.unread ++ (ed.line ++ [c]) :=
    List.drop_append_of_le_length h.taken
  have hlen : ((ed.stream ++ (ed.line ++ [c])).drop ed.taken).length = ed.buffered + 1 := by
    rw [hunread, List.length_append, List.length_append, List.length_singleton, ← Nat.add_assoc]
    rfl
  constructor
  · rw [List.take_append_of_le_length h.taken]
    exact h.received
  · rw [List.length_append]
    exact h.taken.trans (Nat.le_add_right ..)
  · exact h.r
  · show s.e + 1 = BitVec.ofNat 32 (ed.taken + ((ed.stream ++ (ed.line ++ [c])).drop ed.taken).length)
    rw [hlen]
    exact h.e_succ
  · show s.e + 1 = BitVec.ofNat 32 (ed.taken + (((ed.stream ++ (ed.line ++ [c])).drop ed.taken).length + 0))
    rw [hlen]
    exact h.e_succ
  · show ((ed.stream ++ (ed.line ++ [c])).drop ed.taken).length + 0 ≤ _
    rw [hlen]
    exact hlt
  · show Holds _ _ _ ((ed.stream ++ (ed.line ++ [c])).drop ed.taken ++ [])
    rw [hunread, List.append_nil]
    exact h.cells_push hlt c
  · exact List.not_mem_nil

theorem put (h : EditorOk s ed) (hlt : ed.buffered < inputBufSize) (c : UInt8) :
    EditorOk
      (let buf := update s.buf (s.e.toNat % inputBufSize) c
       let e := s.e + 1
       if c = newline ∨ c = ctrlD ∨ (e - s.r).toNat = inputBufSize then { s with buf := buf, e := e, w := e }
       else { s with buf := buf, e := e })
      (ed.put c) := by
  have hcount : (s.e + 1 - s.r).toNat = ed.buffered + 1 := by
    rw [h.e_succ, h.r, toNat_sub_ofNat (Nat.lt_of_le_of_lt hlt (by decide))]
  dsimp only
  rw [LineEditor.put, hcount]
  by_cases hcommit : c = newline ∨ c = ctrlD ∨ ed.buffered + 1 = inputBufSize
  · rw [if_pos hcommit, if_pos hcommit]
    exact h.commit hlt c
  · rw [if_neg hcommit, if_neg hcommit]
    exact h.append hlt fun hc => hcommit (.inl hc)

theorem consoleintr (h : EditorOk s ed) (c : UInt8) : EditorOk (s.consoleintr c) (ed.type c) := by
  rw [Console.consoleintr, LineEditor.type]
  by_cases hP : c = ctrlP
  · rw [if_pos hP, if_pos (.inr hP)]
    exact h
  · by_cases hz : c = 0
    · -- NUL is none of the control characters, and is not stored
      have hdecide : (0 : UInt8) ≠ ctrlU ∧ ¬ ((0 : UInt8) = ctrlH ∨ (0 : UInt8) = del) := by decide
      rw [if_neg hP, if_pos (Or.inl hz : c = 0 ∨ c = ctrlP), hz, if_neg hdecide.1, if_neg hdecide.2]
      unfold Console.storeChar
      rw [if_neg fun hc => hc.1 rfl]
      exact h
    · rw [if_neg hP, if_neg (not_or.mpr ⟨hz, hP⟩)]
      by_cases hU : c = ctrlU
      · rw [if_pos hU, if_pos hU]
        exact h.killLine
      · rw [if_neg hU, if_neg hU]
        by_cases hH : c = ctrlH ∨ c = del
        · rw [if_pos hH, if_pos hH]
          by_cases hne : s.e = s.w
          · have hline := h.e_eq_w_iff.mp hne
            rw [if_neg (not_not.mpr hne), show ed.line.dropLast = ed.line by rw [hline]; rfl]
            exact h
          · rw [if_pos hne]
            exact h.backspace hne
        · rw [if_neg hH, if_neg hH]
          unfold Console.storeChar
          rw [h.count_e]
          by_cases hfull : ed.buffered = inputBufSize
          · rw [if_neg fun hc => absurd hfull (Nat.ne_of_lt hc.2), if_pos hfull]
            exact h
          · have hlt : ed.buffered < inputBufSize := Nat.lt_of_le_of_ne h.room hfull
            rw [if_pos ⟨hz, hlt⟩, if_neg hfull]
            exact h.put hlt _

/-! ## Reading -/

/-- What is at `cons.r` is the next character of the stream. -/
theorem next (h : EditorOk s ed) (hne : s.r ≠ s.w) :
    ∃ rest, ed.unread = s.buf (s.r.toNat % inputBufSize) :: rest ∧ ed.taken < ed.stream.length := by
  cases hun : ed.unread with
  | nil => exact absurd (h.r_eq_w_iff.mpr hun) hne
  | cons c rest =>
    have hcells := h.cells
    rw [hun, List.cons_append] at hcells
    have hlen : ed.unread.length = rest.length + 1 := by rw [hun, List.length_cons]
    rw [LineEditor.unread, List.length_drop] at hlen
    refine ⟨rest, ?_, by omega⟩
    rw [h.r, toNat_mod_ofNat (by decide), hcells.head]

/-- A reader takes the next character of the stream. -/
theorem consume (h : EditorOk s ed) (hne : s.r ≠ s.w) :
    EditorOk (s.consume (s.buf (s.r.toNat % inputBufSize))) { ed with taken := ed.taken + 1 } := by
  obtain ⟨rest, hun, hlt⟩ := h.next hne
  have hrest : ed.stream.drop (ed.taken + 1) = rest := by
    rw [← List.tail_drop]
    exact congrArg List.tail hun
  have hnext : ed.stream[ed.taken]? = some (s.buf (s.r.toNat % inputBufSize)) := by
    rw [← List.head?_drop]
    exact congrArg List.head? hun
  have hlen : ed.unread.length = rest.length + 1 := by rw [hun, List.length_cons]
  constructor
  · show s.received ++ [_] = ed.stream.take (ed.taken + 1)
    rw [h.received, List.take_add_one, hnext]
    rfl
  · exact hlt
  · show s.r + 1 = _
    rw [h.r, BitVec.ofNat_add _ 1]
    rfl
  · show s.w = BitVec.ofNat 32 (ed.taken + 1 + (ed.stream.drop (ed.taken + 1)).length)
    rw [h.w, hlen, hrest, Nat.add_assoc, Nat.add_comm 1]
  · show s.e = BitVec.ofNat 32 (ed.taken + 1 + ((ed.stream.drop (ed.taken + 1)).length + ed.line.length))
    rw [h.e, LineEditor.buffered, hlen, hrest]
    congr 1
    omega
  · have hroom := h.room
    rw [LineEditor.buffered, hlen] at hroom
    show (ed.stream.drop (ed.taken + 1)).length + ed.line.length ≤ _
    rw [hrest]
    omega
  · have hcells := h.cells
    rw [hun, List.cons_append] at hcells
    show Holds _ _ _ (ed.stream.drop (ed.taken + 1) ++ ed.line)
    rw [hrest]
    exact hcells.pop
  · exact h.plain

/-- A step of a reader whose copy succeeds takes the next character and moves `cons.r`, or neither. -/
theorem reader (h : EditorOk s ed) (hs : ReaderStep s p true t) :
    (t.r = s.r ∧ EditorOk t ed) ∨
      (t.r ≠ s.r ∧ ed.taken < ed.stream.length ∧ EditorOk t { ed with taken := ed.taken + 1 }) := by
  have htake : ∀ c, s.r ≠ s.w → s.buf (s.r.toNat % inputBufSize) = c → (s.consume c).r ≠ s.r ∧
      ed.taken < ed.stream.length ∧ EditorOk (s.consume c) { ed with taken := ed.taken + 1 } := by
    rintro c hne rfl
    obtain ⟨rest, -, hlt⟩ := h.next hne
    refine ⟨?_, hlt, h.consume hne⟩
    show s.r + 1 ≠ s.r
    bv_omega
  cases hs with
  | eof m target hpc hm hne hc hmt =>
    obtain ⟨hr, hlt, hok⟩ := htake _ hne hc
    exact .inr ⟨hr, hlt, hok.congr rfl rfl rfl rfl rfl⟩
  | lost m target hpc hcopied => cases hcopied
  | line m target hpc hm hne hc =>
    obtain ⟨hr, hlt, hok⟩ := htake _ hne hc
    exact .inr ⟨hr, hlt, hok.congr rfl rfl rfl rfl rfl⟩
  | byte m target c hpc hm hne hc hD hnl =>
    obtain ⟨hr, hlt, hok⟩ := htake c hne hc
    exact .inr ⟨hr, hlt, hok.congr rfl rfl rfl rfl rfl⟩
  | _ => exact .inl ⟨rfl, h.congr rfl rfl rfl rfl rfl⟩

end EditorOk

/-! ## Runs -/

/-- What a step from `s` to `t` is to the editor: an interrupt types a character, and a reader that moves `cons.r` takes
one. -/
def ConsAct.events (s : Console n) (a : ConsAct n) (t : Console n) : List EditorEvent :=
  match a with
  | consoleintr c => [.typed c]
  | consoleread _ _ | go _ _ _ => if t.r = s.r then [] else [.taken]

/-- `either_copyout()` succeeds in this step. -/
def ConsAct.copies : ConsAct n → Bool
  | go _ _ copied => copied
  | _ => true

/-- Each step of the console is a step of the editor, or none. -/
theorem editor_simulates {a : ConsAct n} (h : EditorOk s ed) (hs : s.step a = some t) (ha : a.copies = true) :
    ∃ ed', run LineEditor.step ed (a.events s t) = some ed' ∧ EditorOk t ed' := by
  cases a with
  | consoleintr c =>
    obtain ⟨-, ht⟩ := Option.ite_none_right_eq_some.mp hs
    obtain rfl := Option.some.inj ht
    exact ⟨_, rfl, h.consoleintr c⟩
  | consoleread p m =>
    obtain ⟨-, ht⟩ := Option.ite_none_right_eq_some.mp hs
    obtain rfl := Option.some.inj ht
    exact ⟨ed, congrArg (run _ ed) (if_pos rfl), h.congr rfl rfl rfl rfl rfl⟩
  | go p killed copied =>
    obtain rfl : copied = true := ha
    rcases h.reader (readerStep_of_go hs) with ⟨hr, hok⟩ | ⟨hr, hlt, hok⟩
    · exact ⟨ed, congrArg (run _ ed) (if_pos hr), hok⟩
    · exact ⟨_, (congrArg (run _ ed) (if_neg hr)).trans (run_single (if_pos hlt)), hok⟩

/-- A reader in the middle of its read does what the next character of the stream says. -/
structure ReadRule (s t : Console n) (p : Fin n) (m target : Nat) (c : UInt8) : Prop where
  /-- A `^D` after the first byte is left for the next read. -/
  putBack : c = ctrlD → m < target →
    t.r = s.r ∧ t.received = s.received ∧ t.pc p = .user ∧ t.ret p = target - m
  eof : c = ctrlD → ¬ m < target → t.received = s.received ++ [ctrlD] ∧ t.pc p = .user ∧ t.ret p = target - m
  /-- The read ends after a newline. -/
  line : c = newline → t.received = s.received ++ [newline] ∧ t.pc p = .user ∧ t.ret p = target - m + 1
  byte : c ≠ ctrlD → c ≠ newline → t.received = s.received ++ [c] ∧ t.pc p = .loop (m - 1) target

theorem EditorOk.readRule {m target : Nat} {c : UInt8} (h : EditorOk s ed) (hpc : s.pc p = .loop m target)
    (hm : 0 < m) (hc : ed.unread.head? = some c) (hs : ReaderStep s p true t) : ReadRule s t p m target c := by
  have hne : s.r ≠ s.w := by
    rw [Ne, h.r_eq_w_iff]
    rintro hnil
    rw [hnil] at hc
    cases hc
  obtain ⟨rest, hun, -⟩ := h.next hne
  rw [hun, List.head?_cons] at hc
  have hbuf : s.buf (s.r.toNat % inputBufSize) = c := Option.some.inj hc
  have hself : ∀ (u : Console n) x, (u.setPc p x).pc p = x := fun u x => update_self ..
  have hret : ∀ (u : Console n) x, (u.leave p x).pc p = .user ∧ (u.leave p x).ret p = x := fun u x =>
    ⟨update_self .., update_self ..⟩
  cases hs with
  | call m' hpc' =>
    rw [hpc'] at hpc
    cases hpc
  | acquire m' target' hpc' hfree =>
    rw [hpc'] at hpc
    cases hpc
  | none m' target' hpc' hm' =>
    obtain ⟨rfl, rfl⟩ := ConsPc.loop.inj (hpc'.symm.trans hpc)
    omega
  | killed m' target' hpc' hm' hempty => exact absurd hempty hne
  | wait m' target' hpc' hm' hempty => exact absurd hempty hne
  | putBack m' target' hpc' hm' hne' hD hmt =>
    obtain ⟨rfl, rfl⟩ := ConsPc.loop.inj (hpc'.symm.trans hpc)
    rw [hbuf] at hD
    subst hD
    exact ⟨fun _ _ => ⟨rfl, rfl, hret _ _⟩, fun _ hn => absurd hmt hn, fun hn => absurd hn (by decide),
      fun hn => absurd rfl hn⟩
  | eof m' target' hpc' hm' hne' hD hmt =>
    obtain ⟨rfl, rfl⟩ := ConsPc.loop.inj (hpc'.symm.trans hpc)
    rw [hbuf] at hD
    subst hD
    exact ⟨fun _ hn => absurd hn hmt, fun _ _ => ⟨rfl, hret _ _⟩, fun hn => absurd hn (by decide),
      fun hn => absurd rfl hn⟩
  | lost m' target' hpc' hcopied => cases hcopied
  | line m' target' hpc' hm' hne' hnl =>
    obtain ⟨rfl, rfl⟩ := ConsPc.loop.inj (hpc'.symm.trans hpc)
    rw [hbuf] at hnl
    subst hnl
    exact ⟨fun hn => absurd hn (by decide), fun hn => absurd hn (by decide), fun _ => ⟨rfl, hret _ _⟩,
      fun _ hn => absurd rfl hn⟩
  | byte m' target' c' hpc' hm' hne' hc' hD hnl =>
    obtain ⟨rfl, rfl⟩ := ConsPc.loop.inj (hpc'.symm.trans hpc)
    obtain rfl : c' = c := hc'.symm.trans hbuf
    exact ⟨fun hn => absurd hn hD, fun hn => absurd hn hD, fun hn => absurd hn hnl, fun _ _ => ⟨rfl, hself _ _⟩⟩

/-- Erasing touches neither the committed characters nor the place where they end. -/
theorem consoleintr_erase {c : UInt8} (hc : c = ctrlU ∨ c = ctrlH ∨ c = del) :
    (s.consoleintr c).buf = s.buf ∧ (s.consoleintr c).r = s.r ∧ (s.consoleintr c).w = s.w := by
  rcases hc with rfl | rfl | rfl
  · exact ⟨rfl, rfl, rfl⟩
  · by_cases hne : s.e = s.w
    · simp [Console.consoleintr, hne, ctrlP, ctrlU, ctrlH]
    · simp [Console.consoleintr, hne, ctrlP, ctrlU, ctrlH]
  · by_cases hne : s.e = s.w
    · simp [Console.consoleintr, hne, ctrlP, ctrlU, del]
    · simp [Console.consoleintr, hne, ctrlP, ctrlU, del]

/-- **The line discipline.** The events of a run of the console whose copies succeed are a run of the line editor.
Readers have received the characters that were taken from its stream, and the ring holds the rest of the stream and the
line, at most 128 characters; erasing leaves the committed ones alone; and a reader goes on or returns as the next
character of the stream says. -/
theorem console_line_discipline {buf : Nat → UInt8} {ls : List (ConsAct n)}
    (hcopies : Each Console.step (fun _ l _ => l.copies = true) (.init buf) ls)
    (hrun : run Console.step (.init buf) ls = some s) :
    ∃ ed, run LineEditor.step .init (trace Console.step ConsAct.events (.init buf) ls) = some ed ∧
      s.received = ed.stream.take ed.taken ∧
      (s.w - s.r).toNat = ed.unread.length ∧ (s.e - s.r).toNat = ed.buffered ∧
      (s.w - s.r).toNat ≤ (s.e - s.r).toNat ∧ (s.e - s.r).toNat ≤ inputBufSize ∧
      (∀ c t, c = ctrlU ∨ c = ctrlH ∨ c = del → s.step (.consoleintr c) = some t →
        t.buf = s.buf ∧ t.r = s.r ∧ t.w = s.w ∧ (s.w - s.r).toNat ≤ (t.e - t.r).toNat) ∧
      ∀ p m target c killed t, s.pc p = .loop m target → 0 < m → ed.unread.head? = some c →
        s.step (.go p killed true) = some t → ReadRule s t p m target c := by
  obtain ⟨ed, hevs, hok⟩ := hcopies.simulates (f := ConsAct.events)
    (fun _ _ _ _ h hs ha => editor_simulates h hs ha) hrun (EditorOk.init buf)
  refine ⟨ed, hevs, hok.received, hok.count_w, hok.count_e, ?_, ?_, fun c t hc ht => ?_,
    fun p m target c killed t hpc hm hc ht => ?_⟩
  · rw [hok.count_w, hok.count_e]
    exact EditorOk.unread_le ed
  · rw [hok.count_e]
    exact hok.room
  · obtain ⟨-, ht⟩ := Option.ite_none_right_eq_some.mp ht
    obtain rfl := Option.some.inj ht
    obtain ⟨hbuf, hr, hw⟩ := consoleintr_erase (s := s) hc
    refine ⟨hbuf, hr, hw, ?_⟩
    have hok' := hok.consoleintr c
    rw [← hw, ← hr, hok'.count_w, hok'.count_e]
    exact EditorOk.unread_le _
  · exact hok.readRule hpc hm hc (readerStep_of_go ht)

/-- `a`, `b`, backspace, `c` and a carriage return are typed, and a process reads the line. -/
def typedLine : List (ConsAct 1) :=
  [.consoleintr 97, .consoleintr 98, .consoleintr ctrlH, .consoleintr 99, .consoleintr carriageReturn,
   .consoleread 0 10, .go 0 false true, .go 0 false true, .go 0 false true, .go 0 false true]

theorem console_line_discipline_typedLine :
    ∃ s, run Console.step (.init fun _ => 0) typedLine = some s ∧ s.received = [97, 99, newline] ∧ s.ret 0 = 3 ∧
      ∃ ed, run LineEditor.step .init [.typed 97, .typed 98, .typed ctrlH, .typed 99, .typed carriageReturn, .taken,
        .taken, .taken] = some ed ∧ s.received = ed.stream.take ed.taken ∧ ed.unread = [] := by
  have hrun : run Console.step (.init fun _ => 0) typedLine = some (runD Console.step (.init fun _ => 0) typedLine) :=
    run_eq_runD (by decide)
  obtain ⟨ed, hevs, hreceived, hunread, -⟩ := console_line_discipline (by decide) hrun
  refine ⟨_, hrun, by decide, by decide, ed, hevs, hreceived, List.length_eq_zero_iff.mp (hunread.symm.trans ?_)⟩
  decide

end Xv6
