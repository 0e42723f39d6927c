import Fastbook.Pipeline.ThreadConfig
import Mathlib.Data.List.Sort
import Mathlib.Data.UInt

/-!
# The grammar of the thread configuration

What a configuration file says, line by line, and the proof that `parse` accepts
the files of this grammar, with what they say, and no others.  A file says the
same after an edit that adds or removes comments and blanks, or that moves its
lines and leaves the `builder` lines in their order.  `load` rejects cores that
the machine does not have and cores that two threads would share.
-/

namespace Fastbook
namespace ThreadConfig

/-! ## Grammar -/

/-- What a line of the file sets. -/
inductive Entry where
  | sched (policy : SchedPolicy)
  | feed (core : UInt32)
  | builder (core : UInt32)
  deriving DecidableEq, Repr

/-- A blank line or a comment. -/
def Skipped (line : List Char) : Prop :=
  trim line = [] ∨ ∃ rest, trim line = '#' :: rest

/-- A line with something to say has a role before its first colon and a value
after it. -/
def Splits (line role value : List Char) : Prop :=
  ¬ Skipped line ∧ ∃ before after,
    trim line = before ++ ':' :: after ∧ ':' ∉ before ∧
      role = trim before ∧ value = trim after

/-- A value that is the number of a core. -/
def IsCore (value : List Char) (core : UInt32) : Prop :=
  value ≠ [] ∧ (∀ c ∈ value, c.isDigit) ∧ decimal value < 2 ^ 32 ∧
    core = .ofNat (decimal value)

/-- The lines of the grammar, each with what it sets. -/
inductive Reads : List Char → Option Entry → Prop
  | skip {line} : Skipped line → Reads line none
  | fifo {line} : Splits line "sched".toList "fifo".toList →
      Reads line (some (.sched .fifo))
  | normal {line} : Splits line "sched".toList "normal".toList →
      Reads line (some (.sched .normal))
  | feed {line value core} : Splits line "feed".toList value →
      IsCore value core → Reads line (some (.feed core))
  | builder {line value core} : Splits line "builder".toList value →
      IsCore value core → Reads line (some (.builder core))

/-- The cores of the `feed` lines, the cores of the `builder` lines and the
policies of the `sched` lines, in file order. -/
def feeds (entries : List (Option Entry)) : List UInt32 :=
  entries.filterMap fun
    | some (.feed core) => some core
    | _ => none

@[inherit_doc feeds]
def builders (entries : List (Option Entry)) : List UInt32 :=
  entries.filterMap fun
    | some (.builder core) => some core
    | _ => none

@[inherit_doc feeds]
def scheds (entries : List (Option Entry)) : List SchedPolicy :=
  entries.filterMap fun
    | some (.sched policy) => some policy
    | _ => none

variable {nShards : ℕ}

/-- The entries of a file set exactly the fields of the configuration: one
`feed`, the `builder`s in order, and a `sched` unless the policy is the default
one. -/
structure Describes (entries : List (Option Entry)) (cfg : ThreadConfig nShards) :
    Prop where
  feed : feeds entries = [cfg.feedCore]
  builders : builders entries = cfg.builderCores.toList
  sched : scheds entries = [cfg.sched] ∨
    scheds entries = [] ∧ cfg.sched = .fifo

/-- The lines belong to the grammar and set the configuration. -/
def Accepts (file : List (List Char)) (cfg : ThreadConfig nShards) : Prop :=
  ∃ entries, List.Forall₂ Reads file entries ∧ Describes entries cfg

/-! ## Blanks -/

theorem trim_append {front back : List Char} (s : List Char)
    (hfront : ∀ c ∈ front, isWs c) (hback : ∀ c ∈ back, isWs c) :
    trim (front ++ s ++ back) = trim s := by
  have hdrop : ∀ t : List Char, (t ++ back).rdropWhile isWs =
      t.rdropWhile isWs := by
    intro t
    have hrev : ∀ c ∈ back.reverse, isWs c := by simpa using hback
    rw [List.rdropWhile, List.reverse_append,
      List.dropWhile_append_of_pos hrev, List.rdropWhile]
  unfold trim
  rw [List.append_assoc, List.dropWhile_append_of_pos hfront,
    List.dropWhile_append]
  split
  · next hs =>
    have hnil : s.dropWhile isWs = [] := by simpa using hs
    have hbackNil : back.dropWhile isWs = [] := by
      simpa [List.dropWhile_eq_nil_iff] using hback
    rw [hnil, hbackNil]
  · exact hdrop _

theorem trim_dropWhile (s : List Char) : trim (s.dropWhile isWs) = trim s := by
  unfold trim
  rw [List.dropWhile_idempotent]

theorem trim_rdropWhile (s : List Char) : trim (s.rdropWhile isWs) = trim s := by
  have hback : ∀ c ∈ s.rtakeWhile isWs, isWs c := by
    intro c hc
    exact List.mem_rtakeWhile_imp hc
  have hfront : ∀ c ∈ ([] : List Char), isWs c := by simp
  have h := trim_append (s.rdropWhile isWs) hfront hback
  rwa [List.nil_append, List.rdropWhile_append_rtakeWhile, eq_comm] at h

theorem rdropWhile_append_cons {p : Char → Bool} {c : Char} (hc : p c = false)
    (s t : List Char) :
    (s ++ c :: t).rdropWhile p = s ++ c :: t.rdropWhile p := by
  unfold List.rdropWhile
  rw [List.reverse_append, List.reverse_cons, List.append_assoc,
    List.dropWhile_append]
  split
  · next ht =>
    have hnil : t.reverse.dropWhile p = [] := by simpa using ht
    simp [hnil, hc]
  · simp

/-- Stripping a line leaves its first colon where it is. -/
theorem trim_append_colon (before after : List Char) :
    trim (before ++ ':' :: after) =
      before.dropWhile isWs ++ ':' :: after.rdropWhile isWs := by
  have hcolon : isWs ':' = false := by decide
  have hdrop : (before ++ ':' :: after).dropWhile isWs =
      before.dropWhile isWs ++ ':' :: after := by
    rw [List.dropWhile_append]
    split
    · next hb =>
      have hnil : before.dropWhile isWs = [] := by simpa using hb
      simp [hnil, hcolon]
    · rfl
  rw [trim, hdrop, rdropWhile_append_cons hcolon]

/-! ## Lines -/

theorem skipped_iff {line : List Char} :
    Skipped line ↔ trim line = [] ∨ (trim line).head? = some '#' := by
  unfold Skipped
  constructor
  · rintro (h | ⟨rest, h⟩)
    · exact .inl h
    · exact .inr (by simp [h])
  · rintro (h | h)
    · exact .inl h
    · exact .inr (by simpa [List.head?_eq_some_iff] using h)

/-- Where the first colon is found. -/
theorem eq_append_of_findIdx? {s : List Char} {colon : ℕ}
    (h : s.findIdx? (· == ':') = some colon) :
    s = s.take colon ++ ':' :: s.drop (colon + 1) ∧ ':' ∉ s.take colon := by
  obtain ⟨hlt, hc, hbefore⟩ := List.findIdx?_eq_some_iff_getElem.mp h
  have hc : s[colon] = ':' := by simpa using hc
  constructor
  · rw [← hc, List.cons_getElem_drop_succ, List.take_append_drop]
  · intro hmem
    obtain ⟨i, hi, heq⟩ := List.mem_take_iff_getElem.mp hmem
    have hne := hbefore i (by omega)
    simp [heq] at hne

/-- A text has one first colon. -/
theorem append_colon_inj {before before' after after' : List Char}
    (h : ':' ∉ before) (h' : ':' ∉ before')
    (heq : before ++ ':' :: after = before' ++ ':' :: after') :
    before = before' ∧ after = after' := by
  have htake : ∀ {b a : List Char}, ':' ∉ b →
      (b ++ ':' :: a).takeWhile (· != ':') = b := by
    intro b a hb
    rw [List.takeWhile_append_of_pos]
    · simp
    · intro c hc
      have hne : c ≠ ':' := by
        rintro rfl
        exact hb hc
      simpa using hne
  have hbefore : before = before' := by
    rw [← htake (a := after) h, heq, htake h']
  subst hbefore
  simpa using heq

theorem splits_iff_of_findIdx? {line role value : List Char} {colon : ℕ}
    (hkept : ¬ Skipped line)
    (h : (trim line).findIdx? (· == ':') = some colon) :
    Splits line role value ↔
      role = trim ((trim line).take colon) ∧
        value = trim ((trim line).drop (colon + 1)) := by
  obtain ⟨heq, hbefore⟩ := eq_append_of_findIdx? h
  constructor
  · rintro ⟨-, before, after, hsplit, hmem, rfl, rfl⟩
    obtain ⟨hb, ha⟩ := append_colon_inj hmem hbefore (hsplit.symm.trans heq)
    rw [hb, ha]
    exact ⟨rfl, rfl⟩
  · rintro ⟨hrole, hvalue⟩
    exact ⟨hkept, _, _, heq, hbefore, hrole, hvalue⟩

theorem not_splits_of_findIdx? {line role value : List Char}
    (h : (trim line).findIdx? (· == ':') = none) : ¬ Splits line role value := by
  rintro ⟨-, before, after, hsplit, -⟩
  have hnone := List.findIdx?_eq_none_iff.mp h ':' (by simp [hsplit])
  simp at hnone

theorem reads_of_skipped {line : List Char} {e : Option Entry}
    (h : Skipped line) : Reads line e ↔ e = none := by
  constructor
  · intro hr
    cases hr with
    | skip => rfl
    | fifo hs => exact absurd h hs.1
    | normal hs => exact absurd h hs.1
    | feed hs => exact absurd h hs.1
    | builder hs => exact absurd h hs.1
  · rintro rfl
    exact .skip h

/-- What `from_chars` and the checks after it accept. -/
theorem fromChars_iff {value : List Char} {core : UInt32} :
    ((¬ (value = [] ∨ (fromChars value).2.2 ≠ .ok ∨ (fromChars value).2.1 ≠ [])) ∧
      (fromChars value).1 = core) ↔ IsCore value core := by
  unfold fromChars IsCore
  by_cases hdigits : ∀ c ∈ value, c.isDigit
  · have htake : value.takeWhile Char.isDigit = value :=
      List.takeWhile_eq_self_iff.mpr hdigits
    have hdrop : value.dropWhile Char.isDigit = [] :=
      List.dropWhile_eq_nil_iff.mpr hdigits
    simp only [htake, hdrop]
    by_cases hnil : value = []
    · simp [hnil]
    rw [if_neg hnil]
    by_cases hlt : decimal value < 2 ^ 32
    · rw [if_pos hlt]
      simp only [hnil, ne_eq, not_true_eq_false, or_self, not_false_eq_true,
        true_and, hlt]
      exact ⟨fun h => ⟨hdigits, h.symm⟩, fun h => h.2.symm⟩
    · rw [if_neg hlt]
      simp only [ne_eq, reduceCtorEq, not_false_eq_true, true_or, or_true,
        not_true_eq_false, false_and, hlt, and_false]
  · have hdrop : value.dropWhile Char.isDigit ≠ [] :=
      fun h => hdigits (List.dropWhile_eq_nil_iff.mp h)
    have hnil : value ≠ [] := by
      rintro rfl
      simp at hdrop
    simp only [hdigits, false_and, and_false, iff_false]
    rintro ⟨hok, -⟩
    apply hok
    right
    right
    split
    · exact hnil
    · split <;> exact hdrop

/-- What a line with a role and a value can say. -/
theorem reads_iff_of_splits {line role value : List Char} {e : Option Entry}
    (hkept : ¬ Skipped line)
    (hsplits : ∀ r v, Splits line r v ↔ r = role ∧ v = value) :
    Reads line e ↔
      (role = "sched".toList ∧
        (value = "fifo".toList ∧ e = some (.sched .fifo) ∨
          value = "normal".toList ∧ e = some (.sched .normal))) ∨
      ∃ core, IsCore value core ∧
        (role = "feed".toList ∧ e = some (.feed core) ∨
          role = "builder".toList ∧ e = some (.builder core)) := by
  constructor
  · intro hr
    cases hr with
    | skip hs => exact absurd hs hkept
    | fifo hs =>
      obtain ⟨hrole, hvalue⟩ := (hsplits _ _).mp hs
      exact .inl ⟨hrole.symm, .inl ⟨hvalue.symm, rfl⟩⟩
    | normal hs =>
      obtain ⟨hrole, hvalue⟩ := (hsplits _ _).mp hs
      exact .inl ⟨hrole.symm, .inr ⟨hvalue.symm, rfl⟩⟩
    | feed hs hcore =>
      obtain ⟨hrole, rfl⟩ := (hsplits _ _).mp hs
      exact .inr ⟨_, hcore, .inl ⟨hrole.symm, rfl⟩⟩
    | builder hs hcore =>
      obtain ⟨hrole, rfl⟩ := (hsplits _ _).mp hs
      exact .inr ⟨_, hcore, .inr ⟨hrole.symm, rfl⟩⟩
  · have hs := (hsplits role value).mpr ⟨rfl, rfl⟩
    rintro (⟨rfl, ⟨rfl, rfl⟩ | ⟨rfl, rfl⟩⟩ | ⟨core, hcore, ⟨rfl, rfl⟩ | ⟨rfl, rfl⟩⟩)
    · exact .fifo hs
    · exact .normal hs
    · exact .feed hs hcore
    · exact .builder hs hcore

section Record

variable (nShards : ℕ)

/-- What a line that says `e` adds to the entries so far, unless that is one too
many of its kind. -/
def record (st : Entries) : Option Entry → Option Entries
  | none => some st
  | some (.sched policy) =>
    if st.sched.isSome then none else some { st with sched := some policy }
  | some (.feed core) =>
    if st.feed.isSome then none else some { st with feed := some core }
  | some (.builder core) =>
    if st.builders.length = nShards then none
    else some { st with builders := st.builders ++ [core] }

theorem parseSched_eq_ok_iff {source : String} {st st' : Entries} {lineno : ℕ}
    {value : List Char} :
    parseSched source st lineno value = .ok st' ↔
      (value = "fifo".toList ∧ record nShards st (some (.sched .fifo)) = some st') ∨
      (value = "normal".toList ∧
        record nShards st (some (.sched .normal)) = some st') := by
  have hne : "fifo".toList ≠ "normal".toList := by decide
  unfold parseSched record
  by_cases hs : st.sched.isSome
  · simp [hs]
  by_cases hfifo : value = "fifo".toList
  · simp [hs, hfifo]
  by_cases hnormal : value = "normal".toList
  · simp [hs, hnormal]
  · simp only [hs, hfifo, hnormal, if_false]
    simp

theorem parseCore_eq_ok_iff {source : String} {st st' : Entries} {lineno : ℕ}
    {role : List Char} {core : UInt32} :
    parseCore nShards source st lineno role core = .ok st' ↔
      (role = "feed".toList ∧ record nShards st (some (.feed core)) = some st') ∨
      (role = "builder".toList ∧
        record nShards st (some (.builder core)) = some st') := by
  unfold parseCore record
  by_cases hfeed : role = "feed".toList
  · by_cases hf : st.feed.isSome
    · simp [hfeed, hf]
    · simp [hfeed, hf]
  by_cases hbuilder : role = "builder".toList
  · by_cases hb : st.builders.length = nShards
    · simp [hbuilder, hb]
    · simp [hbuilder, hb]
  · simp only [hfeed, hbuilder, if_false]
    simp

/-- A line goes through if and only if it belongs to the grammar and what it says
is not one too many. -/
theorem parseLine_eq_ok_iff {source : String} {st st' : Entries} {lineno : ℕ}
    {line : List Char} :
    parseLine nShards source st lineno line = .ok st' ↔
      ∃ e, Reads line e ∧ record nShards st e = some st' := by
  unfold parseLine
  dsimp only
  by_cases hskip : Skipped line
  · rw [if_pos (skipped_iff.mp hskip)]
    simp [reads_of_skipped hskip, record]
  rw [if_neg (mt skipped_iff.mpr hskip)]
  cases hcolon : (trim line).findIdx? (· == ':') with
  | none =>
    simp only [reduceCtorEq, false_iff]
    rintro ⟨e, hr, -⟩
    have hno : ∀ {role value}, ¬ Splits line role value :=
      not_splits_of_findIdx? hcolon
    cases hr with
    | skip hs => exact hskip hs
    | fifo hs => exact hno hs
    | normal hs => exact hno hs
    | feed hs => exact hno hs
    | builder hs => exact hno hs
  | some colon =>
    have hsplits : ∀ role value, Splits line role value ↔
        role = trim ((trim line).take colon) ∧
          value = trim ((trim line).drop (colon + 1)) :=
      fun _ _ => splits_iff_of_findIdx? hskip hcolon
    have hreads := fun e => reads_iff_of_splits (e := e) hskip hsplits
    dsimp only
    generalize trim ((trim line).take colon) = role at hreads ⊢
    generalize trim ((trim line).drop (colon + 1)) = value at hreads ⊢
    by_cases hsched : role = "sched".toList
    · rw [if_pos hsched, parseSched_eq_ok_iff nShards]
      constructor
      · rintro (⟨hv, hrec⟩ | ⟨hv, hrec⟩)
        · exact ⟨_, (hreads _).mpr (.inl ⟨hsched, .inl ⟨hv, rfl⟩⟩), hrec⟩
        · exact ⟨_, (hreads _).mpr (.inl ⟨hsched, .inr ⟨hv, rfl⟩⟩), hrec⟩
      · rintro ⟨e, hr, hrec⟩
        rcases (hreads e).mp hr with ⟨-, ⟨hv, rfl⟩ | ⟨hv, rfl⟩⟩ |
          ⟨core, -, ⟨hfeed, -⟩ | ⟨hbuilder, -⟩⟩
        · exact .inl ⟨hv, hrec⟩
        · exact .inr ⟨hv, hrec⟩
        · exact absurd (hsched.symm.trans hfeed) (by decide)
        · exact absurd (hsched.symm.trans hbuilder) (by decide)
    · rw [if_neg hsched]
      split
      · next hbad =>
        simp only [reduceCtorEq, false_iff]
        rintro ⟨e, hr, -⟩
        rcases (hreads e).mp hr with ⟨hrole, -⟩ | ⟨core, hcore, -⟩
        · exact hsched hrole
        · exact (fromChars_iff.mpr hcore).1 hbad
      · next hgood =>
        have hcore := fromChars_iff.mp ⟨hgood, rfl⟩
        rw [parseCore_eq_ok_iff]
        constructor
        · rintro (⟨hrole, hrec⟩ | ⟨hrole, hrec⟩)
          · exact ⟨_, (hreads _).mpr (.inr ⟨_, hcore, .inl ⟨hrole, rfl⟩⟩), hrec⟩
          · exact ⟨_, (hreads _).mpr (.inr ⟨_, hcore, .inr ⟨hrole, rfl⟩⟩), hrec⟩
        · rintro ⟨e, hr, hrec⟩
          rcases (hreads e).mp hr with ⟨hrole, -⟩ | ⟨core, hcore', hrole⟩
          · exact absurd hrole hsched
          rw [(fromChars_iff.mpr hcore').2]
          rcases hrole with ⟨hrole, rfl⟩ | ⟨hrole, rfl⟩
          · exact .inl ⟨hrole, hrec⟩
          · exact .inr ⟨hrole, hrec⟩

/-- The loop goes through if and only if every line belongs to the grammar and
what the lines say can be recorded. -/
theorem parseLines_eq_ok_iff {source : String} {st st' : Entries} {lineno : ℕ}
    {file : List (List Char)} :
    parseLines nShards source st lineno file = .ok st' ↔
      ∃ entries, List.Forall₂ Reads file entries ∧
        entries.foldlM (record nShards) st = some st' := by
  induction file generalizing st lineno with
  | nil => simp [parseLines]
  | cons line rest ih =>
    have hline : ∀ st₁, parseLine nShards source st (lineno + 1) line = .ok st₁ ↔
        ∃ e, Reads line e ∧ record nShards st e = some st₁ :=
      fun _ => parseLine_eq_ok_iff nShards
    unfold parseLines
    cases hstep : parseLine nShards source st (lineno + 1) line with
    | error e =>
      simp only [reduceCtorEq, false_iff]
      rintro ⟨entries, hreads, hfold⟩
      cases hreads with
      | cons hr hrest =>
        obtain ⟨st₁, hrec, -⟩ := Option.bind_eq_some_iff.mp hfold
        have hok := (hline st₁).mpr ⟨_, hr, hrec⟩
        rw [hstep] at hok
        cases hok
    | ok st₁ =>
      dsimp only
      rw [ih]
      constructor
      · rintro ⟨entries, hreads, hfold⟩
        obtain ⟨e, hr, hrec⟩ := (hline st₁).mp hstep
        refine ⟨e :: entries, .cons hr hreads, ?_⟩
        rw [List.foldlM_cons, hrec]
        exact hfold
      · rintro ⟨entries, hreads, hfold⟩
        cases hreads with
        | cons hr hrest =>
          obtain ⟨st₂, hrec, hfold⟩ := Option.bind_eq_some_iff.mp hfold
          have hok := (hline st₂).mpr ⟨_, hr, hrec⟩
          rw [hstep, Except.ok.injEq] at hok
          subst hok
          exact ⟨_, hrest, hfold⟩

theorem toList_inj {α : Type} {o o' : Option α} :
    o.toList = o'.toList ↔ o = o' := by
  cases o <;> cases o' <;> simp

theorem toList_append_cons {α : Type} {o o' : Option α} {a : α} {l : List α} :
    o.toList ++ a :: l = o'.toList ↔
      o.isSome = false ∧ a :: l = o'.toList := by
  cases o <;> cases o' <;> simp

/-- Entries can be recorded if and only if there are not too many of a kind, and
then each is in its place. -/
theorem foldlM_record_eq_some_iff {entries : List (Option Entry)}
    {st st' : Entries} (hle : st.builders.length ≤ nShards) :
    entries.foldlM (record nShards) st = some st' ↔
      st.feed.toList ++ feeds entries = st'.feed.toList ∧
      st.builders ++ builders entries = st'.builders ∧
      st.sched.toList ++ scheds entries = st'.sched.toList ∧
      st'.builders.length ≤ nShards := by
  induction entries generalizing st with
  | nil =>
    simp only [List.foldlM_nil, feeds, builders, scheds, List.filterMap_nil,
      List.append_nil, toList_inj]
    constructor
    · intro h
      cases h
      exact ⟨rfl, rfl, rfl, hle⟩
    · rintro ⟨hfeed, hbuilders, hsched, -⟩
      cases st
      cases st'
      cases hfeed
      cases hbuilders
      cases hsched
      rfl
  | cons e entries ih =>
    rw [List.foldlM_cons, Option.bind_eq_bind]
    rcases e with _ | policy | core | core
    · exact ih hle
    · by_cases hs : st.sched.isSome
      · simp [record, hs, scheds, toList_append_cons]
      · have hrec : record nShards st (some (.sched policy)) =
            some { st with sched := some policy } := by simp [record, hs]
        have hle' : ({ st with sched := some policy } : Entries).builders.length ≤
            nShards := hle
        rw [hrec, Option.bind_some, ih hle']
        simp [scheds, toList_append_cons, hs, feeds, builders]
    · by_cases hf : st.feed.isSome
      · simp [record, hf, feeds, toList_append_cons]
      · have hrec : record nShards st (some (.feed core)) =
            some { st with feed := some core } := by simp [record, hf]
        have hle' : ({ st with feed := some core } : Entries).builders.length ≤
            nShards := hle
        rw [hrec, Option.bind_some, ih hle']
        simp [scheds, toList_append_cons, hf, feeds, builders]
    · by_cases hb : st.builders.length = nShards
      · simp only [record, hb, if_true, Option.bind_none, reduceCtorEq, false_iff]
        rintro ⟨-, hbuilders, -, hmax⟩
        have hlen := congrArg List.length hbuilders
        simp only [builders, List.filterMap_cons, List.length_append,
          List.length_cons] at hlen
        omega
      · have hrec : record nShards st (some (.builder core)) =
            some { st with builders := st.builders ++ [core] } := by
          simp [record, hb]
        have hle' : (st.builders ++ [core]).length ≤ nShards := by
          rw [List.length_append, List.length_singleton]
          omega
        rw [hrec, Option.bind_some, ih hle']
        simp [scheds, feeds, builders]

/-- The parser accepts the files of the grammar, with what they say. -/
theorem parse_eq_ok_iff {source : String} {input : Stream}
    {cfg : ThreadConfig nShards} :
    parse nShards source input = .ok cfg ↔
      input.bad = false ∧ Accepts (lines input.text) cfg := by
  have hloop : ∀ st, parseLines nShards source {} 0 (lines input.text) = .ok st ↔
      ∃ entries, List.Forall₂ Reads (lines input.text) entries ∧
        entries.foldlM (record nShards) {} = some st :=
    fun _ => parseLines_eq_ok_iff nShards
  have hempty : ({} : Entries).builders.length ≤ nShards := Nat.zero_le _
  have hfold := fun entries st =>
    @foldlM_record_eq_some_iff nShards entries {} st hempty
  unfold parse
  constructor
  · intro h
    split at h
    · cases h
    · next st hst =>
      split at h
      · cases h
      · next hbad =>
        split at h
        · cases h
        · next feed hfeed =>
          split at h
          · next hlen =>
            cases h
            obtain ⟨entries, hreads, hrec⟩ := (hloop st).mp hst
            obtain ⟨hfeeds, hbuilders, hscheds, -⟩ := (hfold entries st).mp hrec
            refine ⟨by simpa using hbad, entries, hreads, ?_, ?_, ?_⟩
            · simpa [hfeed] using hfeeds
            · simpa using hbuilders
            · cases hsched : st.sched with
              | none => exact .inr ⟨by simpa [hsched] using hscheds, rfl⟩
              | some policy => exact .inl (by simpa [hsched] using hscheds)
          · cases h
  · rintro ⟨hbad, entries, hreads, hdesc⟩
    let st : Entries := ⟨some cfg.feedCore, (scheds entries).head?,
      cfg.builderCores.toList⟩
    have hscheds : scheds entries = st.sched.toList ∧
        st.sched.getD .fifo = cfg.sched := by
      rcases hdesc.sched with h | ⟨h, hfifo⟩
      · simp [st, h]
      · simp [st, h, hfifo]
    have hst : parseLines nShards source {} 0 (lines input.text) = .ok st := by
      refine (hloop st).mpr ⟨entries, hreads, (hfold entries st).mpr ?_⟩
      refine ⟨hdesc.feed, hdesc.builders, hscheds.1, ?_⟩
      simp [st]
    have hlen : st.builders.length = nShards := by simp [st]
    rw [hst]
    dsimp only
    rw [hbad, if_neg Bool.false_ne_true]
    dsimp only [st]
    rw [dif_pos hlen, Except.ok.injEq, hscheds.2]
    obtain ⟨feedCore, builderCores, sched⟩ := cfg
    congr

end Record

/-! ## Edits -/

/-- A line with the role `builder`. -/
def IsBuilder (line : List Char) : Prop :=
  ∃ value, Splits line "builder".toList value

open Classical in
/-- The changes to a file that leave what it says. -/
inductive Edit : List (List Char) → List (List Char) → Prop
  /-- A blank line or a comment is put in. -/
  | skip {front back line} : Skipped line →
      Edit (front ++ back) (front ++ line :: back)
  /-- Blanks are put around a line.  A carriage return is one of them. -/
  | pad {front back line left right} :
      (∀ c ∈ left, isWs c) → (∀ c ∈ right, isWs c) →
        Edit (front ++ line :: back) (front ++ (left ++ line ++ right) :: back)
  /-- Blanks are put around the first colon of a line. -/
  | colon {front back before after left right} : ':' ∉ before →
      (∀ c ∈ left, isWs c) → (∀ c ∈ right, isWs c) →
        Edit (front ++ (before ++ ':' :: after) :: back)
          (front ++ (before ++ left ++ ':' :: (right ++ after)) :: back)
  /-- The lines are moved, and the `builder` lines keep their order. -/
  | reorder {file file'} : file.Perm file' →
      file.filter (IsBuilder ·) = file'.filter (IsBuilder ·) → Edit file file'

theorem record_empty_injective : Function.Injective (record 1 {}) := by
  rintro (_ | _ | _ | _) (_ | _ | _ | _) h <;> simp_all [record]

/-- A line says one thing at most. -/
theorem Reads.unique {line : List Char} {e e' : Option Entry}
    (h : Reads line e) (h' : Reads line e') : e = e' := by
  -- Two things that a line says would both be what the parser records for it.
  have hsome : ∀ e, ∃ st, record 1 {} e = some st := by
    rintro (_ | _ | _ | _) <;> exact ⟨_, rfl⟩
  obtain ⟨st, hst⟩ := hsome e
  obtain ⟨st', hst'⟩ := hsome e'
  have hok : parseLine 1 "" {} 0 line = .ok st :=
    (parseLine_eq_ok_iff 1).mpr ⟨e, h, hst⟩
  have hok' : parseLine 1 "" {} 0 line = .ok st' :=
    (parseLine_eq_ok_iff 1).mpr ⟨e', h', hst'⟩
  have heq : st = st' := Except.ok.inj (hok.symm.trans hok')
  apply record_empty_injective
  rw [hst, hst', heq]

/-- What a line says, if anything. -/
noncomputable def meaning (line : List Char) : Option Entry :=
  open Classical in if h : ∃ e, Reads line e then h.choose else none

theorem meaning_eq {line : List Char} {e : Option Entry} (h : Reads line e) :
    meaning line = e := by
  have hex : ∃ e, Reads line e := ⟨e, h⟩
  rw [meaning, dif_pos hex]
  exact hex.choose_spec.unique h

theorem meaning_congr {line line' : List Char}
    (h : ∀ e, Reads line e ↔ Reads line' e) : meaning line = meaning line' := by
  have hfun : Reads line = Reads line' := funext fun e => propext (h e)
  rw [meaning, meaning, hfun]

theorem forall₂_reads_iff {file : List (List Char)} {entries : List (Option Entry)} :
    List.Forall₂ Reads file entries ↔
      (∀ line ∈ file, ∃ e, Reads line e) ∧ entries = file.map meaning := by
  constructor
  · intro h
    induction h with
    | nil => simp
    | cons hr _ ih =>
      obtain ⟨hall, rfl⟩ := ih
      refine ⟨?_, by rw [List.map_cons, meaning_eq hr]⟩
      intro line hline
      rcases List.mem_cons.mp hline with rfl | hline
      · exact ⟨_, hr⟩
      · exact hall line hline
  · rintro ⟨hall, rfl⟩
    rw [List.forall₂_map_right_iff, List.forall₂_same]
    intro line hline
    obtain ⟨e, hr⟩ := hall line hline
    rwa [meaning_eq hr]

theorem accepts_iff {file : List (List Char)} {cfg : ThreadConfig nShards} :
    Accepts file cfg ↔
      (∀ line ∈ file, ∃ e, Reads line e) ∧ Describes (file.map meaning) cfg := by
  unfold Accepts
  constructor
  · rintro ⟨entries, hreads, hdesc⟩
    obtain ⟨hall, rfl⟩ := forall₂_reads_iff.mp hreads
    exact ⟨hall, hdesc⟩
  · rintro ⟨hall, hdesc⟩
    exact ⟨_, forall₂_reads_iff.mpr ⟨hall, rfl⟩, hdesc⟩

/-- A line may be replaced with one that says the same. -/
theorem accepts_replace {front back : List (List Char)} {line line' : List Char}
    {cfg : ThreadConfig nShards} (h : ∀ e, Reads line e ↔ Reads line' e) :
    Accepts (front ++ line :: back) cfg ↔ Accepts (front ++ line' :: back) cfg := by
  simp only [accepts_iff, List.forall_mem_append, List.forall_mem_cons, h,
    List.map_append, List.map_cons, meaning_congr h]

theorem accepts_skip {front back : List (List Char)} {line : List Char}
    {cfg : ThreadConfig nShards} (h : Skipped line) :
    Accepts (front ++ back) cfg ↔ Accepts (front ++ line :: back) cfg := by
  have hreads : Reads line none := .skip h
  have hsame : ∀ {cfg : ThreadConfig nShards} {es es' : List (Option Entry)},
      Describes (es ++ es') cfg ↔ Describes (es ++ none :: es') cfg := by
    intro cfg es es'
    constructor
    · rintro ⟨hfeed, hbuilders, hsched⟩
      exact ⟨by simpa [feeds] using hfeed, by simpa [builders] using hbuilders,
        by simpa [scheds] using hsched⟩
    · rintro ⟨hfeed, hbuilders, hsched⟩
      exact ⟨by simpa [feeds] using hfeed, by simpa [builders] using hbuilders,
        by simpa [scheds] using hsched⟩
  have hmeaning : ∃ e, Reads line e := ⟨none, hreads⟩
  simp only [accepts_iff, List.forall_mem_append, List.forall_mem_cons,
    List.map_append, List.map_cons, meaning_eq hreads, hmeaning, true_and]
  rw [hsame]

/-- Only the `builder` lines say what the builder cores are. -/
theorem builders_map_meaning_filter {file : List (List Char)}
    {p : List Char → Bool} (hp : ∀ line, IsBuilder line → p line = true)
    (hall : ∀ line ∈ file, ∃ e, Reads line e) :
    builders ((file.filter p).map meaning) = builders (file.map meaning) := by
  induction file with
  | nil => rfl
  | cons line file ih =>
    have hrest := ih fun l hl => hall l (List.mem_cons_of_mem _ hl)
    by_cases hline : p line
    · rw [List.filter_cons_of_pos hline]
      simp only [List.map_cons, builders, List.filterMap_cons] at hrest ⊢
      rw [hrest]
    · rw [List.filter_cons_of_neg hline, hrest]
      obtain ⟨e, hr⟩ := hall line List.mem_cons_self
      simp only [List.map_cons, meaning_eq hr, builders]
      cases hr with
      | skip => rfl
      | fifo => rfl
      | normal => rfl
      | feed => rfl
      | builder hs => exact absurd (hp line ⟨_, hs⟩) hline

theorem accepts_reorder {file file' : List (List Char)} {p : List Char → Bool}
    {cfg : ThreadConfig nShards} (hp : ∀ line, IsBuilder line → p line = true)
    (hperm : file.Perm file') (hfilter : file.filter p = file'.filter p)
    (h : Accepts file cfg) : Accepts file' cfg := by
  obtain ⟨hall, hdesc⟩ := accepts_iff.mp h
  have hall' : ∀ line ∈ file', ∃ e, Reads line e :=
    fun line hline => hall line (hperm.mem_iff.mpr hline)
  have hmap := hperm.map meaning
  have hfeeds : (feeds (file.map meaning)).Perm (feeds (file'.map meaning)) :=
    hmap.filterMap _
  have hscheds : (scheds (file.map meaning)).Perm (scheds (file'.map meaning)) :=
    hmap.filterMap _
  refine accepts_iff.mpr ⟨hall', ?_, ?_, ?_⟩
  · rw [hdesc.feed] at hfeeds
    exact List.perm_singleton.mp hfeeds.symm
  · rw [← builders_map_meaning_filter hp hall', ← hfilter,
      builders_map_meaning_filter hp hall]
    exact hdesc.builders
  · rcases hdesc.sched with h | ⟨h, hfifo⟩
    · rw [h] at hscheds
      exact .inl (List.perm_singleton.mp hscheds.symm)
    · rw [h] at hscheds
      exact .inr ⟨hscheds.nil_eq.symm, hfifo⟩

theorem reads_congr {line line' : List Char} (hskip : Skipped line ↔ Skipped line')
    (hsplits : ∀ role value, Splits line role value ↔ Splits line' role value)
    (e : Option Entry) : Reads line e ↔ Reads line' e := by
  constructor
  · intro h
    cases h with
    | skip hs => exact .skip (hskip.mp hs)
    | fifo hs => exact .fifo ((hsplits _ _).mp hs)
    | normal hs => exact .normal ((hsplits _ _).mp hs)
    | feed hs hcore => exact .feed ((hsplits _ _).mp hs) hcore
    | builder hs hcore => exact .builder ((hsplits _ _).mp hs) hcore
  · intro h
    cases h with
    | skip hs => exact .skip (hskip.mpr hs)
    | fifo hs => exact .fifo ((hsplits _ _).mpr hs)
    | normal hs => exact .normal ((hsplits _ _).mpr hs)
    | feed hs hcore => exact .feed ((hsplits _ _).mpr hs) hcore
    | builder hs hcore => exact .builder ((hsplits _ _).mpr hs) hcore

/-- A line with a colon is skipped if it has a comment before the colon. -/
theorem skipped_append_colon {before after : List Char} :
    Skipped (before ++ ':' :: after) ↔ (trim before).head? = some '#' := by
  have hhead : ∀ s : List Char, s.head? = some '#' ↔
      (s.rdropWhile isWs).head? = some '#' := by
    intro s
    constructor
    · intro h
      obtain ⟨t, rfl⟩ := List.head?_eq_some_iff.mp h
      have hkeep := rdropWhile_append_cons (p := isWs) (c := '#') (by decide) [] t
      rw [List.nil_append] at hkeep
      rw [hkeep]
      rfl
    · intro h
      obtain ⟨t, ht⟩ := List.rdropWhile_prefix isWs s
      rw [← ht, List.head?_append, h, Option.some_or]
  rw [skipped_iff, trim_append_colon, trim, ← hhead, List.head?_append]
  cases before.dropWhile isWs with
  | nil => simp
  | cons c s => simp

theorem splits_append_colon {before after role value : List Char}
    (h : ':' ∉ before) :
    Splits (before ++ ':' :: after) role value ↔
      (trim before).head? ≠ some '#' ∧ role = trim before ∧ value = trim after := by
  have hbefore : ':' ∉ before.dropWhile isWs :=
    fun hmem => h ((List.dropWhile_suffix isWs).mem hmem)
  rw [Splits, skipped_append_colon, trim_append_colon]
  refine and_congr_right fun _ => ?_
  constructor
  · rintro ⟨b, a, heq, hb, rfl, rfl⟩
    obtain ⟨rfl, rfl⟩ := append_colon_inj hbefore hb heq
    rw [trim_dropWhile, trim_rdropWhile]
    exact ⟨rfl, rfl⟩
  · rintro ⟨rfl, rfl⟩
    exact ⟨_, _, rfl, hbefore, (trim_dropWhile before).symm,
      (trim_rdropWhile after).symm⟩

theorem accepts_edit {file file' : List (List Char)} {cfg : ThreadConfig nShards}
    (h : Edit file file') : Accepts file cfg ↔ Accepts file' cfg := by
  cases h with
  | skip hs => exact accepts_skip hs
  | @pad front back line left right hleft hright =>
    have htrim := trim_append line hleft hright
    apply accepts_replace
    apply reads_congr
    · rw [Skipped, Skipped, htrim]
    · intro role value
      rw [Splits, Splits, Skipped, Skipped, htrim]
  | @colon front back before after left right hbefore hleft hright =>
    have hbefore' : ':' ∉ before ++ left := by
      intro hmem
      rcases List.mem_append.mp hmem with hmem | hmem
      · exact hbefore hmem
      · exact absurd (hleft _ hmem) (by decide)
    have hnil : ∀ c ∈ ([] : List Char), isWs c := by simp
    have htrim : trim (before ++ left) = trim before := by
      simpa using trim_append before hnil hleft
    have htrim' : trim (right ++ after) = trim after := by
      simpa using trim_append after hright hnil
    apply accepts_replace
    apply reads_congr
    · rw [skipped_append_colon, skipped_append_colon, htrim]
    · intro role value
      rw [splits_append_colon hbefore, splits_append_colon hbefore', htrim, htrim']
  | reorder hperm hfilter =>
    constructor
    · refine accepts_reorder ?_ hperm hfilter
      simp
    · refine accepts_reorder ?_ hperm.symm hfilter.symm
      simp

theorem accepts_eqvGen {file file' : List (List Char)} {cfg : ThreadConfig nShards}
    (h : Relation.EqvGen Edit file file') :
    Accepts file cfg ↔ Accepts file' cfg := by
  induction h with
  | rel _ _ h => exact accepts_edit h
  | refl => exact Iff.rfl
  | symm _ _ _ ih => exact ih.symm
  | trans _ _ _ _ _ ih ih' => exact ih.trans ih'

/-- The parser does not see edits. -/
theorem parse_eqvGen {nShards : ℕ} {source : String} {input input' : Stream}
    {cfg : ThreadConfig nShards} (hbad : input.bad = input'.bad)
    (h : Relation.EqvGen Edit (lines input.text) (lines input'.text)) :
    parse nShards source input = .ok cfg ↔ parse nShards source input' = .ok cfg := by
  rw [parse_eq_ok_iff, parse_eq_ok_iff, hbad, accepts_eqvGen h]

/-! ## Loading -/

theorem nodup_of_adjacentFind {l : List UInt32} (hsorted : l.Pairwise (· ≤ ·))
    (h : adjacentFind l = none) : l.Nodup := by
  fun_induction adjacentFind l with
  | case1 => exact .nil
  | case2 => simp
  | case3 => cases h
  | case4 a b rest hne ih =>
    obtain ⟨hfirst, hrest⟩ := List.pairwise_cons.mp hsorted
    refine List.nodup_cons.mpr ⟨?_, ih hrest h⟩
    intro hmem
    have hba : b ≤ a := by
      rcases List.mem_cons.mp hmem with rfl | hmem
      · exact UInt32.le_refl a
      · exact (List.pairwise_cons.mp hrest).1 a hmem
    exact hne (UInt32.le_antisymm (hfirst b List.mem_cons_self) hba)

/-- Equal cores are next to each other once sorted, so none are left. -/
theorem nodup_of_mergeSort {l : List UInt32}
    (h : adjacentFind (l.mergeSort fun a b => a ≤ b) = none) : l.Nodup := by
  have hsorted : (l.mergeSort fun a b => a ≤ b).Pairwise
      fun a b => decide (a ≤ b) = true := by
    apply List.pairwise_mergeSort
    · intro a b c hab hbc
      simp only [decide_eq_true_eq] at hab hbc ⊢
      exact UInt32.le_trans hab hbc
    · intro a b
      simpa using UInt32.le_total a b
  have hnodup := nodup_of_adjacentFind
    (hsorted.imp fun hab => of_decide_eq_true hab) h
  exact (List.mergeSort_perm l _).nodup_iff.mp hnodup

theorem validate_eq_ok {cfg : ThreadConfig nShards} {source : String}
    {configured : ℤ} (h : cfg.validate source configured = .ok ()) :
    cfg.cores.Nodup ∧ ∀ core ∈ cfg.cores, (core.toNat : ℤ) < configured := by
  unfold validate at h
  split at h
  · cases h
  next hpos =>
  dsimp only at h
  split at h
  · cases h
  next hfind =>
  split at h
  · cases h
  next hadj =>
  refine ⟨nodup_of_mergeSort hadj, ?_⟩
  intro core hcore
  have hlt := List.find?_eq_none.mp hfind core hcore
  simp only [decide_eq_true_eq, UInt32.le_iff_toNat_le, UInt32.toNat_ofNat',
    not_le] at hlt
  have hmod := Nat.mod_le configured.toNat (2 ^ 32)
  omega

theorem load_eq_ok {path : String} {file : Option Stream} {configured : ℤ}
    {cfg : ThreadConfig nShards} (h : load nShards path file configured = .ok cfg) :
    cfg.validate path configured = .ok () := by
  unfold load at h
  split at h
  · cases h
  split at h
  · cases h
  split at h
  · cases h
  next hvalid =>
  cases h
  exact hvalid

/-- The parser accepts exactly the files of the grammar, and a configuration is
what its file says, whatever the comments, blanks and order of the lines.  What
`load` returns gives each hot thread a core of its own that the machine has. -/
theorem parse_exact (nShards : ℕ) (source : String) (input : Stream) :
    ((∃ cfg, parse nShards source input = .ok cfg) ↔
      input.bad = false ∧
        ∃ entries, List.Forall₂ Reads (lines input.text) entries ∧
          (feeds entries).length = 1 ∧ (builders entries).length = nShards ∧
          (scheds entries).length ≤ 1) ∧
    (∀ cfg : ThreadConfig nShards, parse nShards source input = .ok cfg ↔
      input.bad = false ∧ Accepts (lines input.text) cfg) ∧
    (∀ (input' : Stream) (cfg : ThreadConfig nShards), input.bad = input'.bad →
      Relation.EqvGen Edit (lines input.text) (lines input'.text) →
      (parse nShards source input = .ok cfg ↔
        parse nShards source input' = .ok cfg)) ∧
    (∀ (configured : ℤ) (cfg : ThreadConfig nShards),
      load nShards source (some input) configured = .ok cfg →
        cfg.cores.length = nShards + 1 ∧ cfg.cores.Nodup ∧
          ∀ core ∈ cfg.cores, (core.toNat : ℤ) < configured) := by
  refine ⟨?_, fun cfg => parse_eq_ok_iff nShards, fun _ _ => parse_eqvGen, ?_⟩
  · constructor
    · rintro ⟨cfg, hok⟩
      obtain ⟨hbad, entries, hreads, hdesc⟩ := (parse_eq_ok_iff nShards).mp hok
      refine ⟨hbad, entries, hreads, ?_, ?_, ?_⟩
      · rw [hdesc.feed]
        rfl
      · rw [hdesc.builders]
        simp
      · rcases hdesc.sched with h | ⟨h, -⟩
        · simp [h]
        · simp [h]
    · rintro ⟨hbad, entries, hreads, hfeeds, hbuilders, hscheds⟩
      obtain ⟨feed, hfeed⟩ := List.length_eq_one_iff.mp hfeeds
      refine ⟨⟨feed, ⟨(builders entries).toArray, by simpa using hbuilders⟩,
        (scheds entries).head?.getD .fifo⟩,
        (parse_eq_ok_iff nShards).mpr ⟨hbad, entries, hreads, hfeed, rfl, ?_⟩⟩
      match hs : scheds entries with
      | [] => exact .inr ⟨rfl, rfl⟩
      | [policy] => exact .inl rfl
      | _ :: _ :: _ => simp [hs] at hscheds
  · intro configured cfg h
    exact ⟨by simp [cores], validate_eq_ok (load_eq_ok h)⟩

/-- A file, with a comment and a carriage return that were put in later. -/
def plainFile : Stream :=
  { text := "feed: 2\nbuilder: 3\nbuilder: 4\n".toList }

@[inherit_doc plainFile]
def editedFile : Stream :=
  { text := "# cores\nfeed: 2\r\nbuilder: 3\nbuilder: 4\n".toList }

theorem editedFile_edit :
    Relation.EqvGen Edit (lines plainFile.text) (lines editedFile.text) := by
  let rest := ["builder: 3".toList, "builder: 4".toList]
  have hskip : Edit ([] ++ "feed: 2".toList :: rest)
      ([] ++ "# cores".toList :: "feed: 2".toList :: rest) :=
    .skip (.inr ⟨" cores".toList, by decide⟩)
  have hpad : Edit (["# cores".toList] ++ "feed: 2".toList :: rest)
      (["# cores".toList] ++ ([] ++ "feed: 2".toList ++ ['\r']) :: rest) :=
    .pad (by simp) (by simp [isWs])
  exact .trans _ _ _ (.rel _ _ hskip) (.rel _ _ hpad)

/-- What both files say. -/
def plainConfig : ThreadConfig 2 :=
  ⟨2, #v[3, 4], .fifo⟩

theorem parse_plainFile :
    parse 2 "threads.cfg" plainFile = .ok plainConfig := by
  rfl

theorem load_plainFile :
    load 2 "threads.cfg" (some plainFile) 8 = .ok plainConfig := by
  have hsort : plainConfig.cores.mergeSort (fun a b => a ≤ b) = plainConfig.cores :=
    List.mergeSort_of_pairwise (by decide)
  have hvalid : plainConfig.validate "threads.cfg" 8 = .ok () := by
    unfold validate
    rw [hsort]
    rfl
  unfold load
  dsimp only
  rw [parse_plainFile]
  dsimp only
  rw [hvalid]

theorem parse_exact_edited :
    parse 2 "threads.cfg" editedFile = .ok plainConfig ∧
      plainConfig.cores.Nodup := by
  have hspec := parse_exact 2 "threads.cfg" plainFile
  exact ⟨(hspec.2.2.1 editedFile _ rfl editedFile_edit).mp parse_plainFile,
    (hspec.2.2.2 8 _ load_plainFile).2.1⟩

end ThreadConfig
end Fastbook
