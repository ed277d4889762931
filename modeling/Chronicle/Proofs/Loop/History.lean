import Chronicle.Proofs.Loop.Appending
import Chronicle.Proofs.Loop.Finality
import Mathlib.Data.List.Infix

/-!
# Histories of a loop file

Sessions append records to a file and crashes cut octets off its end.  A crash
inside a record leaves its front behind, and nothing keeps the next session from
appending to that.  Up to the first front that was appended to, a reader returns
what sessions appended, in order.  From its start on the octets of the later
session stand in for those that were lost, and no checksum tells.
-/

namespace Chronicle.Loop

open Success

/-! ## What happens to a file -/

inductive Event where
  | session (mode : OpenMode) (records : List Record)
  | crash (lost : Nat)
  deriving DecidableEq, Repr

namespace Event

def after (path : String) (d : Directory) : Event → Directory
  | .session mode records =>
      match Loop.session d mode path records with
      | .ok (_, d') => d'
      | .error _ => d
  | .crash lost => truncate d path lost

def appended : Event → List Record
  | .session _ records => accepted {} records
  | .crash _ => []

end Event

def history (path : String) (d : Directory) (events : List Event) : Directory :=
  events.foldl (Event.after path) d

/-! ## Accounts -/

/-- What a history leaves in a file: whole records, the front of one that a crash
cut, and what sessions put behind that. -/
structure Account where
  whole : List Record := []
  torn : Bytes := []
  behind : Bytes := []
  deriving DecidableEq, Repr

namespace Account

def bytes (a : Account) : Bytes := a.whole.flatMap Record.encode ++ a.torn ++ a.behind

def add (a : Account) (records : List Record) : Account :=
  if a.torn = [] then { a with whole := a.whole ++ records }
  else { a with behind := a.behind ++ records.flatMap Record.encode }

def keep (a : Account) (k : Nat) : Account where
  whole := recordsWithin k a.whole
  torn := ((a.whole.flatMap Record.encode ++ a.torn).take k).drop
    ((recordsWithin k a.whole).flatMap Record.encode).length
  behind := a.behind.take (k - (a.whole.flatMap Record.encode ++ a.torn).length)

def enter (a : Account) : Event → Account
  | .session .create records => add {} (accepted {} records)
  | .session .append records => a.add (accepted {} records)
  | .crash lost => a.keep (a.bytes.length - lost)

def ofEvents (events : List Event) : Account := events.foldl enter {}

end Account

/-! ## Records within a cut -/

section Within

variable {k : Nat} {rs : List Record}

theorem prefix_recordsWithin (k : Nat) (rs : List Record) : recordsWithin k rs <+: rs := by
  induction rs generalizing k with
  | nil => exact List.prefix_refl []
  | cons rec rs ih =>
      rw [recordsWithin]
      split
      · exact List.cons_prefix_cons.mpr ⟨rfl, ih _⟩
      · exact List.nil_prefix

theorem recordsWithin_of_le (all : (rs.flatMap Record.encode).length ≤ k) :
    recordsWithin k rs = rs := by
  induction rs generalizing k with
  | nil => rfl
  | cons rec rs ih =>
      rw [List.flatMap_cons, List.length_append, rec.length_encode] at all
      rw [recordsWithin, if_pos (by omega), ih (by omega)]

theorem length_recordsWithin_le (k : Nat) (rs : List Record) :
    ((recordsWithin k rs).flatMap Record.encode).length ≤ k := by
  induction rs generalizing k with
  | nil => simp [recordsWithin]
  | cons rec rs ih =>
      rw [recordsWithin]
      split
      · have := ih (k - rec.encodedLength)
        rw [List.flatMap_cons, List.length_append, rec.length_encode]
        omega
      · simp

end Within

/-! ## Torn records -/

def Torn (bs : Bytes) : Prop :=
  ∃ rec : Record, rec.refusal? {} = none ∧ ∃ missing, missing ≠ [] ∧ rec.encode = bs ++ missing

theorem Torn.nil : Torn [] :=
  ⟨Record.sample, by decide, Record.sample.encode, by decide, rfl⟩

theorem Torn.take {bs : Bytes} (torn : Torn bs) (k : Nat) : Torn (bs.take k) := by
  obtain ⟨rec, fits, missing, some, all⟩ := torn
  refine ⟨rec, fits, bs.drop k ++ missing, by simp [some], ?_⟩
  rw [← List.append_assoc, List.take_append_drop, all]

theorem torn_take_encode {rec : Record} {k : Nat} (fits : rec.refusal? {} = none)
    (inside : k < rec.encodedLength) : Torn (rec.encode.take k) := by
  refine ⟨rec, fits, rec.encode.drop k, ?_, (List.take_append_drop k _).symm⟩
  rw [← rec.length_encode] at inside
  simpa using inside

theorem torn_of_cut {rs : List Record} {bs : Bytes} (fits : ∀ rec ∈ rs, rec.refusal? {} = none)
    (torn : Torn bs) (k : Nat) :
    Torn (((rs.flatMap Record.encode ++ bs).take k).drop
      ((recordsWithin k rs).flatMap Record.encode).length) := by
  induction rs generalizing k with
  | nil => simpa [recordsWithin] using torn.take k
  | cons rec rs ih =>
      obtain ⟨head, others⟩ := List.forall_mem_cons.mp fits
      have length := rec.length_encode
      rw [List.flatMap_cons, List.append_assoc, recordsWithin]
      split
      · next inside =>
          rw [List.flatMap_cons, List.length_append, List.take_append,
            List.take_of_length_le (by omega), List.drop_length_add_append, length]
          exact ih others _
      · next outside =>
          rw [List.take_append_of_le_length (by omega)]
          exact torn_take_encode head (by omega)

/-! ## What accounts say -/

namespace Account

/-- The whole records were admitted, the torn one was cut, and something stands
behind a torn record only. -/
structure Sound (a : Account) : Prop where
  admitted : ∀ rec ∈ a.whole, rec.refusal? {} = none
  torn : Torn a.torn
  seam : a.torn = [] → a.behind = []

variable {a : Account} {records : List Record}

theorem Sound.empty : Sound {} := ⟨by simp, .nil, fun _ => rfl⟩

theorem Sound.add (sound : a.Sound) (admitted : ∀ rec ∈ records, rec.refusal? {} = none) :
    (a.add records).Sound := by
  unfold Account.add
  split
  · exact ⟨List.forall_mem_append.mpr ⟨sound.admitted, admitted⟩, sound.torn, sound.seam⟩
  · next some => exact ⟨sound.admitted, sound.torn, fun none => absurd none some⟩

theorem bytes_add (sound : a.Sound) (records : List Record) :
    (a.add records).bytes = a.bytes ++ records.flatMap Record.encode := by
  unfold Account.add
  split
  · next none => simp [bytes, none, sound.seam none]
  · simp [bytes]

theorem Sound.keep (sound : a.Sound) (k : Nat) : (a.keep k).Sound := by
  refine ⟨fun rec member => ?_, torn_of_cut sound.admitted sound.torn k, fun none => ?_⟩
  · exact sound.admitted rec ((prefix_recordsWithin k a.whole).subset member)
  · simp only [Account.keep] at none ⊢
    by_cases within : k ≤ (a.whole.flatMap Record.encode ++ a.torn).length
    · rw [Nat.sub_eq_zero_of_le within, List.take_zero]
    · have whole : (a.whole.flatMap Record.encode).length ≤ k := by
        rw [List.length_append] at within
        omega
      rw [recordsWithin_of_le whole, List.take_of_length_le (by omega), List.drop_left] at none
      rw [sound.seam none, List.take_nil]

theorem bytes_keep (a : Account) (k : Nat) : (a.keep k).bytes = a.bytes.take k := by
  obtain ⟨rest, all⟩ := prefix_recordsWithin k a.whole
  have short := length_recordsWithin_le k a.whole
  have front : (a.whole.flatMap Record.encode ++ a.torn).take k =
      (recordsWithin k a.whole).flatMap Record.encode ++
        ((a.whole.flatMap Record.encode ++ a.torn).take k).drop
          ((recordsWithin k a.whole).flatMap Record.encode).length := by
    have split : a.whole.flatMap Record.encode ++ a.torn =
        (recordsWithin k a.whole).flatMap Record.encode ++
          (rest.flatMap Record.encode ++ a.torn) := by
      rw [← List.append_assoc, ← List.flatMap_append, all]
    rw [split, List.take_append, List.take_of_length_le short, List.drop_left]
  simp only [bytes, keep]
  rw [← front, ← List.take_append]

theorem Sound.enter (sound : a.Sound) (e : Event) : (a.enter e).Sound := by
  cases e with
  | session mode records =>
      have admitted : ∀ rec ∈ accepted {} records, rec.refusal? {} = none :=
        fun rec => refusal?_of_mem_accepted
      cases mode with
      | create => exact Sound.empty.add admitted
      | append => exact sound.add admitted
  | crash lost => exact sound.keep _

theorem whole_enter (a : Account) (e : Event) :
    (a.enter e).whole.Sublist (a.whole ++ e.appended) := by
  cases e with
  | session mode records =>
      cases mode with
      | create => exact List.sublist_append_right _ _
      | append =>
          simp only [Account.enter, Account.add]
          split
          · exact List.Sublist.refl _
          · exact List.sublist_append_left _ _
  | crash lost => exact (prefix_recordsWithin _ _).sublist.trans (List.sublist_append_left _ _)

theorem Sound.foldl (sound : a.Sound) (events : List Event) :
    (events.foldl Account.enter a).Sound := by
  induction events generalizing a with
  | nil => exact sound
  | cons e events ih => exact ih (sound.enter e)

theorem whole_foldl (a : Account) (events : List Event) :
    (events.foldl Account.enter a).whole.Sublist (a.whole ++ events.flatMap Event.appended) := by
  induction events generalizing a with
  | nil => simp
  | cons e events ih =>
      rw [List.foldl_cons, List.flatMap_cons, ← List.append_assoc]
      exact (ih (a.enter e)).trans ((whole_enter a e).append_right _)

end Account

/-! ## What the file holds -/

section Content

variable {path name : String} {d : Directory} {a : Account}

theorem get?_after (place : Path.place path = .file name) (sound : a.Sound)
    (holds : (d.get? name).getD [] = a.bytes) (e : Event) :
    ((e.after path d).get? name).getD [] = (a.enter e).bytes := by
  cases e with
  | session mode records =>
      simp only [Event.after, session_of_file place, Directory.get?_put_self, Option.getD_some]
      cases mode with
      | create =>
          rw [Account.enter, Account.bytes_add .empty]
          rfl
      | append =>
          rw [Account.enter, Account.bytes_add sound, ← holds]
          rfl
  | crash lost =>
      simp only [Event.after, truncate, place, Account.enter, Account.bytes_keep]
      cases found : d.get? name with
      | none =>
          rw [found, Option.getD_none] at holds
          simp [found, ← holds]
      | some content =>
          rw [found, Option.getD_some] at holds
          simp [holds]

theorem get?_history (place : Path.place path = .file name) (sound : a.Sound)
    (holds : (d.get? name).getD [] = a.bytes) (events : List Event) :
    ((history path d events).get? name).getD [] = (events.foldl Account.enter a).bytes := by
  induction events generalizing d a with
  | nil => exact holds
  | cons e events ih => exact ih (sound.enter e) (get?_after place sound holds e)

end Content

/-! ## What a reader returns -/

def Barren (bs : Bytes) : Prop :=
  ∀ (limits : LoopLimits) (rec : Record), limits.maxComment + 2 < leBound 8 →
    rec.refusal? limits = none → ¬ rec.encode <+: bs

theorem Torn.barren {bs : Bytes} (torn : Torn bs) : Barren bs := by
  rintro limits rec window fits ⟨rest, rfl⟩
  obtain ⟨rec', fits', missing, some, all⟩ := torn
  have same : rec'.encode ++ [] = rec.encode ++ (rest ++ missing) := by
    rw [List.append_nil, all, List.append_assoc]
  obtain rfl := Record.eq_of_encode_append (by decide) window fits' fits same
  have nothing : rest ++ missing = [] := by simpa using same
  exact some (List.append_eq_nil_iff.mp nothing).2

theorem Source.Plain.poll_ne_failed {s : Source} (plain : s.Plain) : s.poll.1 ≠ .failed := by
  unfold Source.poll
  split
  · simp
  · simp [Source.exhaust_of_plain plain]

namespace Reader

variable {r r' : Reader} {rec : Record} {whole : List Record} {rest : Bytes}

def delivered? : Answer → Option Record
  | some (.ok rec) => some rec
  | _ => none

def returned (calls : List Call) (r : Reader) : List Record :=
  (r.asks calls).1.filterMap delivered?

theorem returned_cons (c : Call) (calls : List Call) (r : Reader) :
    r.returned (c :: calls) = (delivered? (r.ask c).1).toList ++ (r.ask c).2.returned calls := by
  simp only [returned, asks, List.filterMap_cons]
  cases delivered? (r.ask c).1 <;> rfl

theorem returned_of_failed (failed : r.state = .failed) (calls : List Call) :
    r.returned calls = [] := by
  rw [returned, refuses_of_failed failed]
  refine List.filterMap_eq_nil_iff.mpr fun answer member => ?_
  obtain ⟨c, -, rfl⟩ := List.mem_map.mp member
  cases c <;> rfl

theorem returned_of_finished (finished : r.state = .finished) (calls : List Call) :
    r.returned calls = [] := by
  induction calls with
  | nil => rfl
  | cons c calls ih =>
      rw [returned_cons, ask_of_finished finished, ih]
      rfl

theorem returned_of_dead (active : r.Active) (dead : r.source = { run := [], fails := true })
    (calls : List Call) : r.returned calls = [] := by
  induction calls with
  | nil => rfl
  | cons c calls ih =>
      have polled : r.source.poll = (.failed, r.source) := by rw [dead]; rfl
      rcases asked : r.ask c with ⟨answer, r'⟩
      rw [returned_cons, asked]
      cases turn_of_active active asked with
      | stalled _ => simpa [delivered?, polled] using ih
      | ended ended => simp [polled] at ended
      | malformed complete _ | record complete _ => simp [polled] at complete

/-- A reader of whole records returns them in order, and goes beyond only where
a record starts. -/
theorem returned_of_whole (window : r.limits.maxComment + 2 < leBound 8) (plain : r.source.Plain)
    (admitted : ∀ rec ∈ whole, rec.refusal? {} = none)
    (start : r.source.run = whole.flatMap Record.encode ++ rest) (calls : List Call) :
    (r.returned calls).take whole.length <+: whole ∧
      (Barren rest → r.returned calls <+: whole) := by
  induction calls generalizing r whole with
  | nil => simp [returned, asks]
  | cons c calls ih =>
      by_cases failed : r.state = .failed
      · simp [returned_of_failed failed]
      by_cases finished : r.state = .finished
      · simp [returned_of_finished finished]
      rcases asked : r.ask c with ⟨answer, r'⟩
      rw [returned_cons, asked]
      cases turn_of_active ⟨finished, failed⟩ asked with
      | malformed _ run => simp [delivered?, returned_of_failed (state_of_body_error run)]
      | ended _ => simp [delivered?, returned_of_finished]
      | stalled stalled => exact absurd stalled plain.poll_ne_failed
      | record _ run =>
          obtain ⟨fits, ⟨left, front⟩, rfl⟩ := (body_eq_ok_iff window).mp run
          cases whole with
          | nil =>
              refine ⟨by simp, fun barren => ?_⟩
              exact absurd ⟨left, front ▸ start⟩ (barren _ _ window fits)
          | cons first others =>
              obtain ⟨head, admitted⟩ := List.forall_mem_cons.mp admitted
              rw [List.flatMap_cons, List.append_assoc, front] at start
              obtain rfl := Record.eq_of_encode_append (by decide) window head fits start.symm
              have next : (r.behind first.encode.length).counted.source.run =
                  others.flatMap Record.encode ++ rest := by
                simpa [counted, behind, front] using start
              have later := ih (r := (r.behind first.encode.length).counted) window
                ⟨plain.later_eq, plain.fails_eq⟩ admitted next
              simpa [delivered?] using later

end Reader

/-! ## Reading a file back -/

/-- Whatever sessions and crashes a file went through, it holds what the account
says, and the whole records of the account were appended in that order.  What a
reader returns agrees with them as far as they go, and nothing comes after them
unless a session appended behind a torn record. -/
theorem history_read_back (path : String) {d : Directory} (absent : d.read? path = none)
    (events : List Event) :
    (∀ content, (history path d events).read? path = some content →
      content = (Account.ofEvents events).bytes) ∧
    (Account.ofEvents events).whole.Sublist (events.flatMap Event.appended) ∧
    ∀ (r : Reader) (limits : LoopLimits) (calls : List Call),
      openReader (history path d events) path = .ok r → limits.maxComment + 2 < leBound 8 →
      (Reader.returned calls { r with limits }).take (Account.ofEvents events).whole.length <+:
        (Account.ofEvents events).whole ∧
      ((Account.ofEvents events).behind = [] →
        Reader.returned calls { r with limits } <+: (Account.ofEvents events).whole) := by
  have sound : (Account.ofEvents events).Sound := Account.Sound.empty.foldl events
  have sublist := Account.whole_foldl {} events
  rw [List.nil_append] at sublist
  have held : ∀ name, Path.place path = .file name →
      ((history path d events).get? name).getD [] = (Account.ofEvents events).bytes := by
    intro name place
    simp only [Directory.read?, place] at absent
    exact get?_history place .empty (by simp [absent, Account.bytes]) events
  refine ⟨fun content found => ?_, sublist, fun r limits calls opened window => ?_⟩
  · cases place : Path.place path with
    | file name =>
        simp only [Directory.read?, place] at found
        simpa [found] using held name place
    | directory | nowhere => simp [Directory.read?, place] at found
  · unfold openReader at opened
    cases place : Path.place path with
    | file name =>
        have holds := held name place
        cases found : (history path d events).get? name with
        | none => simp [place, found] at opened
        | some content =>
            simp only [place, found, Except.ok.injEq] at opened
            rw [found, Option.getD_some] at holds
            subst opened
            have start : content = (Account.ofEvents events).whole.flatMap Record.encode ++
                ((Account.ofEvents events).torn ++ (Account.ofEvents events).behind) := by
              rw [holds, Account.bytes, List.append_assoc]
            obtain ⟨front, all⟩ := Reader.returned_of_whole (r := Reader.ofBytes content limits)
              window ⟨rfl, rfl⟩ sound.admitted start calls
            refine ⟨front, fun seamless => all ?_⟩
            rw [seamless, List.append_nil]
            exact sound.torn.barren
    | directory =>
        simp only [place, Except.ok.injEq] at opened
        subst opened
        have dead := Reader.returned_of_dead
          (r := { source := { run := [], fails := true }, limits }) ⟨nofun, nofun⟩ rfl calls
        simp [dead]
    | nowhere => simp [place] at opened

def headless : Record := ⟨"a", ⟨1, 1, 1, 1⟩, List.replicate 28 0⟩

def filler : Record := ⟨"b", ⟨2, 2, 2, 2⟩, []⟩

def splice : List Event := [.session .create [headless], .crash 28, .session .append [filler]]

def cutShort : List Event := [.session .create [filler, filler], .crash 1]

theorem history_read_back_cut : Directory.read? {} "a" = none ∧
    ({} : LoopLimits).maxComment + 2 < leBound 8 ∧
    (∃ r, openReader (history "a" {} cutShort) "a" = .ok r ∧
      r.returned [.next, .step] <+: [filler]) ∧
    ∃ r, openReader (history "a" {} (cutShort ++ [.session .append [filler]])) "a" = .ok r ∧
      (r.returned [.next, .step]).take 1 <+: [filler] := by
  have absent : Directory.read? {} "a" = none := by decide
  have window : ({} : LoopLimits).maxComment + 2 < leBound 8 := by decide
  have opened : openReader (history "a" {} cutShort) "a" =
      .ok (.ofBytes (Account.ofEvents cutShort).bytes {}) := rfl
  have opened' : openReader (history "a" {} (cutShort ++ [.session .append [filler]])) "a" =
      .ok (.ofBytes (Account.ofEvents (cutShort ++ [.session .append [filler]])).bytes {}) := rfl
  have calm := (history_read_back "a" absent cutShort).2.2 _ {} [.next, .step] opened window
  have seamed := (history_read_back "a" absent (cutShort ++ [.session .append [filler]])).2.2
    _ {} [.next, .step] opened' window
  exact ⟨absent, window, ⟨_, opened, calm.2 rfl⟩, ⟨_, opened', seamed.1⟩⟩

/-- The octets of a later record can stand in for a payload that was lost, and
the reader returns a record that nobody wrote. -/
theorem splice_read_back : ∃ r, openReader (history "a" {} splice) "a" = .ok r ∧
    r.returned [.next, .next] = [{ headless with payload := filler.encode }] ∧
    { headless with payload := filler.encode } ∉ splice.flatMap Event.appended := by
  refine ⟨Reader.ofBytes (headless.encode.take 28 ++ filler.encode) {}, ?_, ?_, ?_⟩
  · rfl
  · rfl
  · decide

end Chronicle.Loop
