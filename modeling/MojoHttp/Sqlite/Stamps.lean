import Mathlib.Data.Option.Basic
import Mathlib.Data.List.Basic

/-!
# Stamps: which rows changed, and in what order (`stamps.mojo`)

The four triggers of a watched table, each fired once for a changed row, and the entry they keep of it in
`m0_changes`. A statement is the row changes it made; one that failed made none, and REPLACE is not used.

* **`Sound`** — what every reachable database satisfies: an entry says whether its row lives, no two share a stamp.
* **`Since`** — what ties the entries to a copy of the table: below the copy's stamp nothing changed.
* **`delta_rebuilds`** — so a delta on the copy is the table.
* **`born_held`** — and a row's birth says whether the copy holds that row.
-/

namespace MojoHttp

/-! ## The database -/

/-- A row of `m0_changes`, behind its key. -/
structure ChangeEntry where
  seq : Nat
  born : Nat
  gone : Bool
  deriving Repr, DecidableEq

/-- The tables by name and rowid, which of them are watched, `m0_changes` and `m0_stamp`. -/
structure StampDb (Table Row : Type) where
  tables : Table → Int → Option Row
  watched : Table → Bool
  changes : Table → Int → Option ChangeEntry
  seq : Nat
  floor : Int

/-- A write of an application, row by row, or `watch`. -/
inductive Stmt (Table Row : Type)
  | insert (t : Table) (key : Int) (row : Row)
  | update (t : Table) (old new : Int) (row : Row)
  | delete (t : Table) (key : Int)
  | watch (t : Table)
  deriving Repr, DecidableEq

inductive Commit (Table Row : Type)
  | txn (stmts : List (Stmt Table Row))
  | rollback (stmts : List (Stmt Table Row))
  | prune (below : Int)
  deriving Repr, DecidableEq

section

variable {Table Row : Type} [DecidableEq Table]

/-- One place of a table of tables. -/
def setAt {α : Type} (m : Table → Int → Option α) (t : Table) (key : Int) (value : Option α) : Table → Int → Option α :=
  fun t' key' => if t' = t ∧ key' = key then value else m t' key'

@[simp] theorem setAt_self {α : Type} (m : Table → Int → Option α) (t : Table) (key : Int) (value : Option α) :
    setAt m t key value t key = value := by
  simp [setAt]

theorem setAt_of_ne {α : Type} (m : Table → Int → Option α) {t t' : Table} {key key' : Int} (value : Option α)
    (h : ¬(t' = t ∧ key' = key)) : setAt m t key value t' key' = m t' key' := by
  simp [setAt, h]

theorem setAt_setAt {α : Type} (m : Table → Int → Option α) (t : Table) (key : Int) (v w : Option α) :
    setAt (setAt m t key v) t key w = setAt m t key w := by
  funext t' key'
  by_cases hplace : t' = t ∧ key' = key
  · obtain ⟨rfl, rfl⟩ := hplace
    rw [setAt_self, setAt_self]
  · rw [setAt_of_ne _ _ hplace, setAt_of_ne _ _ hplace, setAt_of_ne _ _ hplace]

namespace StampDb

/-- `install_stamps`: nothing is watched, nothing stamped. -/
def installed (tables : Table → Int → Option Row) : StampDb Table Row := ⟨tables, fun _ => false, fun _ _ => none, 0, 0⟩

/-- `_TICK`. -/
def tick (db : StampDb Table Row) : StampDb Table Row := { db with seq := db.seq + 1 }

/-- `_entry`: an insert that cannot conflict. -/
def entry (db : StampDb Table Row) (t : Table) (key : Int) : StampDb Table Row :=
  match db.changes t key with
  | none => { db with changes := setAt db.changes t key (some ⟨0, 0, false⟩) }
  | some _ => db

/-- `UPDATE m0_changes SET ... WHERE tbl = t AND row = key`. -/
def setEntry (db : StampDb Table Row) (t : Table) (key : Int) (f : ChangeEntry → ChangeEntry) : StampDb Table Row :=
  { db with changes := setAt db.changes t key ((db.changes t key).map f) }

/-- The program of a trigger: tick, make sure of the entry, set it by `_NOW`. -/
def stamp (db : StampDb Table Row) (t : Table) (key : Int) (f : (now : Nat) → ChangeEntry → ChangeEntry) :
    StampDb Table Row :=
  (db.tick.entry t key).setEntry t key (f db.tick.seq)

/-- `_born`. -/
def born (db : StampDb Table Row) (t : Table) (key : Int) : StampDb Table Row :=
  db.stamp t key fun now e => { e with seq := now, born := now, gone := false }

/-- `_touched`. -/
def touched (db : StampDb Table Row) (t : Table) (key : Int) : StampDb Table Row :=
  db.stamp t key fun now e => { e with seq := now }

/-- `_gone`. -/
def gone (db : StampDb Table Row) (t : Table) (key : Int) : StampDb Table Row :=
  db.stamp t key fun now e => { e with seq := now, gone := true }

/-- The trigger `_ai`. -/
def afterInsert (db : StampDb Table Row) (t : Table) (new : Int) : StampDb Table Row :=
  if db.watched t then db.born t new else db

/-- The triggers `_au` and `_am`. -/
def afterUpdate (db : StampDb Table Row) (t : Table) (old new : Int) : StampDb Table Row :=
  if db.watched t then if old = new then db.touched t new else (db.gone t old).born t new else db

/-- The trigger `_ad`. -/
def afterDelete (db : StampDb Table Row) (t : Table) (old : Int) : StampDb Table Row :=
  if db.watched t then db.gone t old else db

/-- A change of one row, and its triggers; `none` where the row or the key's uniqueness does not allow it. -/
def apply (db : StampDb Table Row) : Stmt Table Row → Option (StampDb Table Row)
  | .insert t key row =>
    if (db.tables t key).isSome then none
    else some ({ db with tables := setAt db.tables t key (some row) }.afterInsert t key)
  | .update t old new row =>
    if (db.tables t old).isNone || (old != new && (db.tables t new).isSome) then none
    else some ({ db with tables := setAt (setAt db.tables t old none) t new (some row) }.afterUpdate t old new)
  | .delete t key =>
    if (db.tables t key).isNone then none
    else some ({ db with tables := setAt db.tables t key none }.afterDelete t key)
  | .watch t => some { db with watched := fun t' => if t' = t then true else db.watched t' }

def applyAll (db : StampDb Table Row) (stmts : List (Stmt Table Row)) : Option (StampDb Table Row) := stmts.foldlM apply db

/-- `prune_stamps`. -/
def pruneStamps (db : StampDb Table Row) (below : Int) : StampDb Table Row :=
  let last := min below db.seq
  { db with
    changes := fun t key => (db.changes t key).filter fun e => !(e.gone && decide ((e.seq : Int) ≤ last))
    floor := max db.floor last }

def commit (db : StampDb Table Row) : Commit Table Row → Option (StampDb Table Row)
  | .txn stmts => db.applyAll stmts
  | .rollback _ => some db
  | .prune below => some (db.pruneStamps below)

/-- The database after a history of commits. -/
def run (db : StampDb Table Row) (history : List (Commit Table Row)) : Option (StampDb Table Row) := history.foldlM commit db

/-- What a client makes of its copy with the entries above `n`. -/
def applyDelta (db : StampDb Table Row) (t : Table) (n : Nat) (copy : Int → Option Row) : Int → Option Row :=
  fun key =>
    match db.changes t key with
    | none => copy key
    | some e => if n < e.seq then if e.gone then none else db.tables t key else copy key

end StampDb

/-! ## What a trigger writes -/

/-- **A trigger's program** sets the one entry, by the next stamp. -/
theorem changes_stamp (db : StampDb Table Row) (t : Table) (key : Int) (f : Nat → ChangeEntry → ChangeEntry) :
    db.stamp t key f = { db with
      seq := db.seq + 1
      changes := setAt db.changes t key (some (f (db.seq + 1) ((db.changes t key).getD ⟨0, 0, false⟩))) } := by
  unfold StampDb.stamp StampDb.entry StampDb.tick StampDb.setEntry
  dsimp only
  cases hentry : db.changes t key with
  | none => simp [setAt_setAt]
  | some e => simp [hentry]

/-! ## What happens to a watched row -/

/-- A row of a watched table comes, changes or goes. -/
inductive RowEvent (Table Row : Type)
  | come (t : Table) (key : Int) (row : Row)
  | change (t : Table) (key : Int) (row : Row)
  | go (t : Table) (key : Int)
  deriving Repr, DecidableEq

namespace RowEvent

def table : RowEvent Table Row → Table
  | come t _ _ => t
  | change t _ _ => t
  | go t _ => t

def key : RowEvent Table Row → Int
  | come _ key _ => key
  | change _ key _ => key
  | go _ key => key

/-- What the row is then. -/
def row : RowEvent Table Row → Option Row
  | come _ _ row => some row
  | change _ _ row => some row
  | go _ _ => none

/-- What its entry is then, at stamp `now`. -/
def entry (now : Nat) (e : ChangeEntry) : RowEvent Table Row → ChangeEntry
  | come _ _ _ => ⟨now, now, false⟩
  | change _ _ _ => { e with seq := now }
  | go _ _ => { e with seq := now, gone := true }

/-- The row comes. -/
def Comes : RowEvent Table Row → Prop
  | come _ _ _ => True
  | _ => False

/-- The table is watched; a row comes where there is none, and changes or goes where there is one. -/
structure Allowed (ev : RowEvent Table Row) (db : StampDb Table Row) : Prop where
  watched : db.watched ev.table = true
  row : ev.Comes ↔ db.tables ev.table ev.key = none

end RowEvent

/-- The row and its entry, and nothing else. -/
def StampDb.happen (db : StampDb Table Row) (ev : RowEvent Table Row) : StampDb Table Row :=
  { db with
    tables := setAt db.tables ev.table ev.key ev.row
    changes := setAt db.changes ev.table ev.key
      (some (ev.entry (db.seq + 1) ((db.changes ev.table ev.key).getD ⟨0, 0, false⟩)))
    seq := db.seq + 1 }

/-- Events in turn, each allowed where it happens. -/
inductive Happens : StampDb Table Row → List (RowEvent Table Row) → StampDb Table Row → Prop
  | nil (db : StampDb Table Row) : Happens db [] db
  | cons {db db' : StampDb Table Row} (ev : RowEvent Table Row) {evs : List (RowEvent Table Row)} (h : ev.Allowed db)
      (hrest : Happens (db.happen ev) evs db') : Happens db (ev :: evs) db'

/-- The events of a statement on a watched table: a key that is moved is a death and a birth. -/
def Stmt.events : Stmt Table Row → List (RowEvent Table Row)
  | .insert t key row => [.come t key row]
  | .update t old new row => if old = new then [.change t new row] else [.go t old, .come t new row]
  | .delete t key => [.go t key]
  | .watch _ => []

def Stmt.table : Stmt Table Row → Table
  | .insert t _ _ => t
  | .update t _ _ _ => t
  | .delete t _ => t
  | .watch t => t

/-- What a statement can do: the events of its rows where the table is watched, else changes of that table's rows only;
or a table is watched. -/
inductive StmtEffect (db : StampDb Table Row) (s : Stmt Table Row) : StampDb Table Row → Prop
  | watched {db' : StampDb Table Row} (hwatched : db.watched s.table = true) (h : Happens db s.events db') : StmtEffect db s db'
  | unwatched (tables : Table → Int → Option Row) (hwatched : db.watched s.table = false)
      (h : ∀ t, t ≠ s.table → tables t = db.tables t) : StmtEffect db s { db with tables := tables }
  | watch (t : Table) (h : s = .watch t) :
    StmtEffect db s { db with watched := fun t' => if t' = t then true else db.watched t' }

theorem setAt_table {α : Type} (m : Table → Int → Option α) (t : Table) (key : Int) (value : Option α) :
    ∀ t', t' ≠ t → setAt m t key value t' = m t' := by
  intro t' hne
  funext key'
  exact setAt_of_ne _ _ fun h => hne h.1

/-- **The effect of a statement.** -/
theorem effect_of_apply {db db' : StampDb Table Row} {s : Stmt Table Row} (h : db.apply s = some db') :
    StmtEffect db s db' := by
  cases s with
  | watch t =>
    rw [StampDb.apply, Option.some.injEq] at h
    subst h
    exact .watch t rfl
  | insert t key row =>
    rw [StampDb.apply] at h
    split at h
    · cases h
    · next hrow =>
      rw [Option.some.injEq] at h
      subst h
      unfold StampDb.afterInsert
      cases hw : db.watched t with
      | false => exact .unwatched _ hw (setAt_table _ _ _ _)
      | true =>
        have habsent : db.tables t key = none := by simpa using hrow
        refine .watched hw (.cons (.come t key row) ⟨hw, ?_⟩ ?_)
        · exact iff_of_true trivial habsent
        · rw [if_pos rfl, StampDb.born, changes_stamp]
          exact .nil _
  | delete t key =>
    rw [StampDb.apply] at h
    split at h
    · cases h
    · next hrow =>
      rw [Option.some.injEq] at h
      subst h
      unfold StampDb.afterDelete
      cases hw : db.watched t with
      | false => exact .unwatched _ hw (setAt_table _ _ _ _)
      | true =>
        have hpresent : ¬db.tables t key = none := by simpa using hrow
        refine .watched hw (.cons (.go t key) ⟨hw, ?_⟩ ?_)
        · exact iff_of_false id hpresent
        · rw [if_pos rfl, StampDb.gone, changes_stamp]
          exact .nil _
  | update t old new row =>
    rw [StampDb.apply] at h
    split at h
    · cases h
    · next hrow =>
      rw [Option.some.injEq] at h
      subst h
      simp only [Bool.or_eq_true, Bool.and_eq_true, not_or, not_and, Bool.not_eq_true, bne_iff_ne] at hrow
      unfold StampDb.afterUpdate
      cases hw : db.watched t with
      | false =>
        refine .unwatched _ hw fun t' hne => ?_
        exact (setAt_table _ _ _ _ t' hne).trans (setAt_table _ _ _ _ t' hne)
      | true =>
        refine .watched hw ?_
        rw [if_pos rfl]
        rw [Stmt.events]
        by_cases hsame : old = new
        · subst hsame
          rw [if_pos rfl, if_pos rfl, StampDb.touched, changes_stamp]
          have hpresent : ¬db.tables t old = none := Option.isSome_iff_ne_none.mp (by simpa using hrow.1)
          have hevent : ({ tables := setAt (setAt db.tables t old none) t old (some row)
                           watched := db.watched
                           changes := setAt db.changes t old (some { (db.changes t old).getD ⟨0, 0, false⟩ with
                             seq := db.seq + 1 })
                           seq := db.seq + 1
                           floor := db.floor } : StampDb Table Row) = db.happen (.change t old row) := by
            rw [setAt_setAt]
            rfl
          exact .cons (.change t old row) ⟨hw, iff_of_false id hpresent⟩ (hevent ▸ .nil _)
        · rw [if_neg hsame, if_neg hsame, StampDb.born, changes_stamp, StampDb.gone, changes_stamp]
          -- the row under the old key goes, then the row under the new one comes
          have hpresent : ¬db.tables t old = none := Option.isSome_iff_ne_none.mp (by simpa using hrow.1)
          have habsent : (db.happen (.go t old)).tables t new = none := by
            show setAt db.tables t old none t new = none
            rw [setAt_of_ne _ _ fun h => hsame h.2.symm]
            simpa using hrow.2 hsame
          exact .cons (.go t old) ⟨hw, iff_of_false id hpresent⟩
            (.cons (.come t new row) ⟨hw, iff_of_true trivial habsent⟩ (.nil _))

/-! ## What every database satisfies -/

/-- An entry is of a watched table and says whether its row lives; its stamps are ones that were given, and no other
entry's. -/
structure Sound (db : StampDb Table Row) : Prop where
  unwatched : ∀ t key, db.watched t = false → db.changes t key = none
  lives : ∀ t key e, db.changes t key = some e → (e.gone = true ↔ db.tables t key = none)
  given : ∀ t key e, db.changes t key = some e → e.seq ≤ db.seq ∧ e.born ≤ e.seq
  apart : ∀ t key e t' key' e', db.changes t key = some e → db.changes t' key' = some e' → e.seq = e'.seq →
    t = t' ∧ key = key'
  floor : db.floor ≤ db.seq

theorem sound_installed (tables : Table → Int → Option Row) : Sound (StampDb.installed tables) where
  unwatched := fun _ _ _ => rfl
  lives := fun _ _ _ h => by cases h
  given := fun _ _ _ h => by cases h
  apart := fun _ _ _ _ _ _ h => by cases h
  floor := Int.le_refl _

omit [DecidableEq Table] in
/-- The entry of an event is at its stamp, and born there or where it was born. -/
theorem RowEvent.entry_spec (ev : RowEvent Table Row) (now : Nat) (e : ChangeEntry) :
    (ev.entry now e).seq = now ∧ ((ev.entry now e).born = now ∧ ev.Comes ∨ (ev.entry now e).born = e.born ∧ ¬ev.Comes) := by
  cases ev with
  | come t key row => exact ⟨rfl, Or.inl ⟨rfl, trivial⟩⟩
  | change t key row => exact ⟨rfl, Or.inr ⟨rfl, id⟩⟩
  | go t key => exact ⟨rfl, Or.inr ⟨rfl, id⟩⟩

/-- What stands at a place after an event: its own row and entry, or what stood there. -/
theorem happen_cases (db : StampDb Table Row) (ev : RowEvent Table Row) (t : Table) (key : Int) :
    (t = ev.table ∧ key = ev.key ∧ (db.happen ev).tables t key = ev.row ∧
      (db.happen ev).changes t key = some (ev.entry (db.seq + 1) ((db.changes t key).getD ⟨0, 0, false⟩))) ∨
    (¬(t = ev.table ∧ key = ev.key) ∧ (db.happen ev).tables t key = db.tables t key ∧
      (db.happen ev).changes t key = db.changes t key) := by
  by_cases hplace : t = ev.table ∧ key = ev.key
  · obtain ⟨rfl, rfl⟩ := hplace
    exact Or.inl ⟨rfl, rfl, setAt_self _ _ _ _, setAt_self _ _ _ _⟩
  · exact Or.inr ⟨hplace, setAt_of_ne _ _ hplace, setAt_of_ne _ _ hplace⟩

theorem Sound.happen {db : StampDb Table Row} (hs : Sound db) {ev : RowEvent Table Row} (ha : ev.Allowed db) :
    Sound (db.happen ev) := by
  have hborn : ∀ t key, ((db.changes t key).getD ⟨0, 0, false⟩).born ≤ db.seq := by
    intro t key
    cases hentry : db.changes t key with
    | none => exact Nat.zero_le _
    | some e => exact Nat.le_trans (hs.given t key e hentry).2 (hs.given t key e hentry).1
  refine ⟨?_, ?_, ?_, ?_, ?_⟩
  · intro t key hunwatched
    rcases happen_cases db ev t key with ⟨rfl, -, -, -⟩ | ⟨-, -, hchanges⟩
    · exact absurd ha.watched (by rw [show db.watched ev.table = false from hunwatched]; exact Bool.false_ne_true)
    · rw [hchanges]
      exact hs.unwatched t key hunwatched
  · intro t key e he
    rcases happen_cases db ev t key with ⟨ht, hkey, hrow, hchanges⟩ | ⟨-, hrow, hchanges⟩
    · rw [hchanges, Option.some.injEq] at he
      subst ht hkey he
      rw [hrow]
      have hallowed := ha.row
      have hlives := hs.lives ev.table ev.key
      generalize db.changes ev.table ev.key = held at hlives
      cases ev with
      | come t key row => simp [RowEvent.entry, RowEvent.row]
      | go t key => simp [RowEvent.entry, RowEvent.row]
      | change t key row =>
        -- the row lives, so its entry did not say otherwise
        have hpresent : ¬db.tables t key = none := fun hnone => hallowed.mpr hnone
        have hnot : (held.getD ⟨0, 0, false⟩).gone = false := by
          cases held with
          | none => rfl
          | some e => exact Bool.eq_false_iff.mpr fun hgone => hpresent ((hlives e rfl).mp hgone)
        simp [RowEvent.entry, RowEvent.row, hnot]
    · rw [hchanges] at he
      rw [hrow]
      exact hs.lives t key e he
  · intro t key e he
    show e.seq ≤ db.seq + 1 ∧ _
    rcases happen_cases db ev t key with ⟨-, -, -, hchanges⟩ | ⟨-, -, hchanges⟩
    · rw [hchanges, Option.some.injEq] at he
      obtain ⟨hseq, hwhen⟩ := ev.entry_spec (db.seq + 1) ((db.changes t key).getD ⟨0, 0, false⟩)
      rw [he] at hseq hwhen
      have := hborn t key
      rcases hwhen with ⟨hnow, -⟩ | ⟨hold, -⟩
      · omega
      · omega
    · rw [hchanges] at he
      have := hs.given t key e he
      omega
  · intro t key e t' key' e' he he' hsame
    rcases happen_cases db ev t key with ⟨ht, hkey, -, hchanges⟩ | ⟨-, -, hchanges⟩
    · rw [hchanges, Option.some.injEq] at he
      have hseq := (ev.entry_spec (db.seq + 1) ((db.changes t key).getD ⟨0, 0, false⟩)).1
      rcases happen_cases db ev t' key' with ⟨ht', hkey', -, -⟩ | ⟨-, -, hchanges'⟩
      · exact ⟨ht.trans ht'.symm, hkey.trans hkey'.symm⟩
      · rw [hchanges'] at he'
        have := (hs.given t' key' e' he').1
        rw [he] at hseq
        omega
    · rw [hchanges] at he
      rcases happen_cases db ev t' key' with ⟨-, -, -, hchanges'⟩ | ⟨-, -, hchanges'⟩
      · rw [hchanges', Option.some.injEq] at he'
        have hseq := (ev.entry_spec (db.seq + 1) ((db.changes t' key').getD ⟨0, 0, false⟩)).1
        have := (hs.given t key e he).1
        rw [he'] at hseq
        omega
      · rw [hchanges'] at he'
        exact hs.apart t key e t' key' e' he he' hsame
  · have := hs.floor
    show db.floor ≤ ((db.seq + 1 : Nat) : Int)
    omega

theorem Sound.happens {db db' : StampDb Table Row} {evs : List (RowEvent Table Row)} (hs : Sound db)
    (h : Happens db evs db') : Sound db' := by
  induction h with
  | nil db => exact hs
  | cons ev ha _ ih => exact ih (hs.happen ha)

theorem Sound.apply {db db' : StampDb Table Row} (hs : Sound db) {s : Stmt Table Row} (h : db.apply s = some db') :
    Sound db' := by
  cases effect_of_apply h with
  | watched hw h => exact hs.happens h
  | unwatched tables hw hother =>
    refine ⟨hs.unwatched, ?_, hs.given, hs.apart, hs.floor⟩
    intro t key e he
    by_cases ht : t = s.table
    · -- an unwatched table has no entries
      have hnone := hs.unwatched s.table key hw
      rw [← ht] at hnone
      rw [show db.changes t key = some e from he] at hnone
      cases hnone
    · rw [hs.lives t key e he]
      show _ ↔ tables t key = none
      rw [hother t ht]
  | watch t _ =>
    refine ⟨?_, hs.lives, hs.given, hs.apart, hs.floor⟩
    intro t' key hunwatched
    refine hs.unwatched t' key ?_
    by_cases ht : t' = t
    · simp [ht] at hunwatched
    · simpa [ht] using hunwatched

/-- What a prune keeps it keeps as it was; what it forgets is a tombstone at or below the floor it leaves. -/
theorem prune_cases (db : StampDb Table Row) (below : Int) (t : Table) (key : Int) :
    (db.pruneStamps below).changes t key = db.changes t key ∨
      ∃ e, db.changes t key = some e ∧ e.gone = true ∧ (e.seq : Int) ≤ (db.pruneStamps below).floor ∧
        (db.pruneStamps below).changes t key = none := by
  unfold StampDb.pruneStamps
  dsimp only
  cases hentry : db.changes t key with
  | none => exact Or.inl rfl
  | some e =>
    by_cases hdrop : e.gone = true ∧ (e.seq : Int) ≤ min below db.seq
    · refine Or.inr ⟨e, rfl, hdrop.1, Int.le_trans hdrop.2 (Int.le_max_right _ _), ?_⟩
      simp [Option.filter, hdrop.1, hdrop.2]
    · refine Or.inl ?_
      have hkeep : (!(e.gone && decide ((e.seq : Int) ≤ min below db.seq))) = true := by
        rw [Bool.not_eq_true', Bool.and_eq_false_iff]
        by_cases hgone : e.gone = true
        · exact Or.inr (decide_eq_false fun hle => hdrop ⟨hgone, hle⟩)
        · exact Or.inl (Bool.eq_false_iff.mpr hgone)
      rw [Option.filter, hkeep, if_pos rfl]

theorem Sound.prune {db : StampDb Table Row} (hs : Sound db) (below : Int) : Sound (db.pruneStamps below) := by
  have hkept : ∀ t key e, (db.pruneStamps below).changes t key = some e → db.changes t key = some e := by
    intro t key e he
    rcases prune_cases db below t key with hsame | ⟨e', -, -, -, hnone⟩
    · rwa [hsame] at he
    · rw [hnone] at he
      cases he
  refine ⟨?_, ?_, ?_, ?_, ?_⟩
  · intro t key hunwatched
    rcases prune_cases db below t key with hsame | ⟨e', -, -, -, hnone⟩
    · rw [hsame]
      exact hs.unwatched t key hunwatched
    · exact hnone
  · exact fun t key e he => hs.lives t key e (hkept t key e he)
  · exact fun t key e he => hs.given t key e (hkept t key e he)
  · exact fun t key e t' key' e' he he' => hs.apart t key e t' key' e' (hkept t key e he) (hkept t' key' e' he')
  · have := hs.floor
    show max db.floor (min below db.seq) ≤ db.seq
    omega

theorem Sound.applyAll {stmts : List (Stmt Table Row)} {db db' : StampDb Table Row} (hs : Sound db)
    (h : db.applyAll stmts = some db') : Sound db' := by
  induction stmts generalizing db with
  | nil =>
    cases h
    exact hs
  | cons s stmts ih =>
    obtain ⟨next, hfirst, hrest⟩ := Option.bind_eq_some_iff.mp h
    exact ih (hs.apply hfirst) hrest

theorem Sound.commit {db db' : StampDb Table Row} (hs : Sound db) {c : Commit Table Row} (h : db.commit c = some db') :
    Sound db' := by
  cases c with
  | txn stmts => exact hs.applyAll h
  | rollback stmts =>
    cases h
    exact hs
  | prune below =>
    cases h
    exact hs.prune below

/-- **Every database a history leads to** is sound. -/
theorem Sound.run {history : List (Commit Table Row)} {db db' : StampDb Table Row} (hs : Sound db)
    (h : db.run history = some db') : Sound db' := by
  induction history generalizing db with
  | nil =>
    cases h
    exact hs
  | cons c history ih =>
    obtain ⟨next, hfirst, hrest⟩ := Option.bind_eq_some_iff.mp h
    exact ih (hs.commit hfirst) hrest

/-! ## What ties the entries to a copy -/

/-- The database since the copy of table `t` was taken at stamp `n`; `births` are the keys whose rows came after.
While no tombstone above the copy is pruned, a row without an entry above it is as in the copy, and the entry of
another tells by its birth whether the copy has its row. -/
structure Since (copy : Int → Option Row) (t : Table) (n : Nat) (births : Int → Prop) (db : StampDb Table Row) : Prop where
  watched : db.watched t = true
  head : n ≤ db.seq
  same : db.floor ≤ n → ∀ key, (∀ e, db.changes t key = some e → e.seq ≤ n) →
    db.tables t key = copy key ∧ ¬births key
  told : db.floor ≤ n → ∀ key e, db.changes t key = some e → n < e.seq →
    (e.born ≤ n ↔ (copy key).isSome = true ∧ ¬births key)

variable {copy : Int → Option Row} {t : Table} {n : Nat} {births : Int → Prop}

/-- The copy itself. -/
theorem since_copy {db : StampDb Table Row} (hs : Sound db) (hw : db.watched t = true) :
    Since (db.tables t) t db.seq (fun _ => False) db where
  watched := hw
  head := Nat.le_refl _
  same := fun _ _ _ => ⟨rfl, id⟩
  told := by
    intro _ key e he hlt
    have := (hs.given t key e he).1
    omega

/-- A row of table `t` comes under the key. -/
def RowEvent.Bears (t : Table) (key : Int) (ev : RowEvent Table Row) : Prop := ev.table = t ∧ ev.key = key ∧ ev.Comes

/-- **An event** keeps the tie. -/
theorem Since.happen {db : StampDb Table Row} (hs : Sound db) (hsince : Since copy t n births db) {ev : RowEvent Table Row}
    (ha : ev.Allowed db) : Since copy t n (fun key => births key ∨ ev.Bears t key) (db.happen ev) := by
  have hhead := hsince.head
  refine ⟨hsince.watched, ?_, ?_, ?_⟩
  · show n ≤ db.seq + 1
    omega
  · intro hfloor key hnone
    rcases happen_cases db ev t key with ⟨-, -, -, hchanges⟩ | ⟨hplace, hrow, hchanges⟩
    · -- its entry is above the copy now
      have hseq := (ev.entry_spec (db.seq + 1) ((db.changes t key).getD ⟨0, 0, false⟩)).1
      have := hnone _ hchanges
      omega
    · rw [hchanges] at hnone
      obtain ⟨htables, hnot⟩ := hsince.same hfloor key hnone
      refine ⟨hrow.trans htables, ?_⟩
      rintro (hbirth | ⟨ht, hkey, -⟩)
      · exact hnot hbirth
      · exact hplace ⟨ht.symm, hkey.symm⟩
  · intro hfloor key e he hlt
    rcases happen_cases db ev t key with ⟨ht, hkey, -, hchanges⟩ | ⟨hplace, -, hchanges⟩
    · rw [hchanges, Option.some.injEq] at he
      have hwhen := (ev.entry_spec (db.seq + 1) ((db.changes t key).getD ⟨0, 0, false⟩)).2
      rw [he] at hwhen
      rcases hwhen with ⟨hnow, hcomes⟩ | ⟨hold, hstays⟩
      · -- born above the copy
        refine iff_of_false (by omega) ?_
        rintro ⟨-, hnot⟩
        exact hnot (Or.inr ⟨ht.symm, hkey.symm, hcomes⟩)
      · have hbears : (births key ∨ ev.Bears t key) ↔ births key :=
          or_iff_left fun hbears => hstays hbears.2.2
        rw [hold]
        show _ ↔ (copy key).isSome = true ∧ ¬(births key ∨ ev.Bears t key)
        rw [hbears]
        by_cases habove : ∃ e', db.changes t key = some e' ∧ n < e'.seq
        · obtain ⟨e', he', hlt'⟩ := habove
          rw [he']
          exact hsince.told hfloor key e' he' hlt'
        · -- the row is the copy's, and its entry, if it had one, no younger than the copy
          have hbelow : ∀ e', db.changes t key = some e' → e'.seq ≤ n := fun e' he' =>
            Nat.not_lt.mp fun hlt' => habove ⟨e', he', hlt'⟩
          obtain ⟨htables, hnot⟩ := hsince.same hfloor key hbelow
          have hpresent : (copy key).isSome = true := by
            rw [← htables, Option.isSome_iff_ne_none, ht, hkey]
            exact fun hnone => hstays (ha.row.mpr hnone)
          refine iff_of_true ?_ ⟨hpresent, hnot⟩
          cases hentry : db.changes t key with
          | none => exact Nat.zero_le n
          | some e' => exact Nat.le_trans (hs.given t key e' hentry).2 (hbelow e' hentry)
    · rw [hchanges] at he
      rw [hsince.told hfloor key e he hlt]
      have hbears : (births key ∨ ev.Bears t key) ↔ births key :=
        or_iff_left fun hbears => hplace ⟨hbears.1.symm, hbears.2.1.symm⟩
      show _ ↔ (copy key).isSome = true ∧ ¬(births key ∨ ev.Bears t key)
      rw [hbears]

theorem Since.congr {births' : Int → Prop} {db : StampDb Table Row} (hsince : Since copy t n births db)
    (h : ∀ key, births key ↔ births' key) : Since copy t n births' db := by
  rwa [show births' = births from funext fun key => propext (h key).symm]

theorem Since.happens {db db' : StampDb Table Row} {evs : List (RowEvent Table Row)} (hs : Sound db)
    (hsince : Since copy t n births db) (h : Happens db evs db') :
    Since copy t n (fun key => births key ∨ ∃ ev ∈ evs, ev.Bears t key) db' := by
  induction h generalizing births with
  | nil db =>
    refine hsince.congr fun key => ?_
    simp
  | cons ev ha _ ih =>
    refine (ih (hs.happen ha) (hsince.happen hs ha)).congr fun key => ?_
    simp [or_assoc]

/-- A row of table `t` comes under the key. -/
def Stmt.Bears (t : Table) (key : Int) (s : Stmt Table Row) : Prop := ∃ ev ∈ s.events, ev.Bears t key

omit [DecidableEq Table] in
theorem table_of_mem_events {s : Stmt Table Row} {ev : RowEvent Table Row} (h : ev ∈ s.events) : ev.table = s.table := by
  cases s with
  | insert t key row =>
    rw [List.mem_singleton.mp h]
    rfl
  | delete t key =>
    rw [List.mem_singleton.mp h]
    rfl
  | watch t => cases h
  | update t old new row =>
    rw [Stmt.events] at h
    split at h
    · rw [List.mem_singleton.mp h]
      rfl
    · rcases List.mem_cons.mp h with rfl | h
      · rfl
      · rw [List.mem_singleton.mp h]
        rfl

/-- **A statement** keeps the tie. -/
theorem Since.apply {db db' : StampDb Table Row} (hs : Sound db) (hsince : Since copy t n births db)
    {s : Stmt Table Row} (h : db.apply s = some db') : Since copy t n (fun key => births key ∨ s.Bears t key) db' := by
  cases effect_of_apply h with
  | watched hw h => exact hsince.happens hs h
  | unwatched tables hw hother =>
    -- the table is another than the copy's, which is watched
    have hne : t ≠ s.table := by
      rintro rfl
      rw [hsince.watched] at hw
      cases hw
    have hbears : ∀ key, births key ↔ births key ∨ s.Bears t key := by
      intro key
      refine (or_iff_left ?_).symm
      rintro ⟨ev, hev, ht, -⟩
      exact hne (ht.symm.trans (table_of_mem_events hev))
    refine Since.congr ⟨hsince.watched, hsince.head, ?_, hsince.told⟩ hbears
    intro hfloor key hnone
    rw [← (hsince.same hfloor key hnone).1]
    exact ⟨congrFun (hother t hne) key, (hsince.same hfloor key hnone).2⟩
  | watch t' heq =>
    have hbears : ∀ key, births key ↔ births key ∨ s.Bears t key := by
      intro key
      refine (or_iff_left ?_).symm
      rintro ⟨ev, hev, -⟩
      rw [heq] at hev
      cases hev
    refine Since.congr ⟨?_, hsince.head, hsince.same, hsince.told⟩ hbears
    show (if t = t' then true else db.watched t) = true
    rw [hsince.watched, ite_self]

/-- A prune may forget what is above the copy; the floor is above it then. -/
theorem Since.prune {db : StampDb Table Row} (hsince : Since copy t n births db) (below : Int) :
    Since copy t n births (db.pruneStamps below) := by
  have hfloors : db.floor ≤ (db.pruneStamps below).floor := Int.le_max_left _ _
  refine ⟨hsince.watched, hsince.head, ?_, ?_⟩
  · intro hfloor key hnone
    refine hsince.same (Int.le_trans hfloors hfloor) key fun e he => ?_
    rcases prune_cases db below t key with hkept | ⟨e', he', -, hle, -⟩
    · exact hnone e (hkept.trans he)
    · rw [he, Option.some.injEq] at he'
      rw [← he'] at hle
      omega
  · intro hfloor key e he hlt
    rcases prune_cases db below t key with hkept | ⟨e', -, -, -, hforgotten⟩
    · rw [hkept] at he
      exact hsince.told (Int.le_trans hfloors hfloor) key e he hlt
    · rw [hforgotten] at he
      cases he

theorem Since.applyAll {stmts : List (Stmt Table Row)} {births : Int → Prop} {db db' : StampDb Table Row} (hs : Sound db)
    (hsince : Since copy t n births db) (h : db.applyAll stmts = some db') :
    Since copy t n (fun key => births key ∨ ∃ s ∈ stmts, s.Bears t key) db' := by
  induction stmts generalizing db births with
  | nil =>
    cases h
    refine hsince.congr fun key => ?_
    simp
  | cons s stmts ih =>
    obtain ⟨next, hfirst, hrest⟩ := Option.bind_eq_some_iff.mp h
    refine (ih (hs.apply hfirst) (hsince.apply hs hfirst) hrest).congr fun key => ?_
    simp [or_assoc]

/-- A committed transaction has a row come under the key. -/
def Commit.Bears (t : Table) (key : Int) : Commit Table Row → Prop
  | .txn stmts => ∃ s ∈ stmts, s.Bears t key
  | _ => False

theorem Since.commit {db db' : StampDb Table Row} (hs : Sound db) (hsince : Since copy t n births db)
    {c : Commit Table Row} (h : db.commit c = some db') :
    Since copy t n (fun key => births key ∨ c.Bears t key) db' := by
  cases c with
  | txn stmts => exact hsince.applyAll hs h
  | rollback stmts =>
    cases h
    refine hsince.congr fun key => ?_
    simp [Commit.Bears]
  | prune below =>
    cases h
    refine (hsince.prune below).congr fun key => ?_
    simp [Commit.Bears]

/-- **The tie holds after every history.** -/
theorem Since.run {history : List (Commit Table Row)} {births : Int → Prop} {db db' : StampDb Table Row} (hs : Sound db)
    (hsince : Since copy t n births db) (h : db.run history = some db') :
    Since copy t n (fun key => births key ∨ ∃ c ∈ history, c.Bears t key) db' := by
  induction history generalizing db births with
  | nil =>
    cases h
    refine hsince.congr fun key => ?_
    simp
  | cons c history ih =>
    obtain ⟨next, hfirst, hrest⟩ := Option.bind_eq_some_iff.mp h
    refine (ih (hs.commit hfirst) (hsince.commit hs hfirst) hrest).congr fun key => ?_
    simp [or_assoc]

/-! ## The order of the stamps -/

/-- From one database to the next no stamp is taken back: an entry is as it was, or at a stamp that was not given
then. -/
structure Onward (db db' : StampDb Table Row) : Prop where
  head : db.seq ≤ db'.seq
  entries : ∀ t key e, db'.changes t key = some e → db.changes t key = some e ∨ db.seq < e.seq ∧ e.seq ≤ db'.seq

omit [DecidableEq Table] in
theorem Onward.refl (db : StampDb Table Row) : Onward db db := ⟨Nat.le_refl _, fun _ _ _ he => Or.inl he⟩

omit [DecidableEq Table] in
theorem Onward.trans {db db' db'' : StampDb Table Row} (h : Onward db db') (h' : Onward db' db'') : Onward db db'' := by
  have hheads := And.intro h.head h'.head
  refine ⟨by omega, fun t key e he => ?_⟩
  rcases h'.entries t key e he with hold | hnew
  · rcases h.entries t key e hold with hfirst | hsecond
    · exact Or.inl hfirst
    · exact Or.inr (by omega)
  · exact Or.inr (by omega)

theorem onward_happens {db db' : StampDb Table Row} {evs : List (RowEvent Table Row)} (h : Happens db evs db') :
    Onward db db' := by
  induction h with
  | nil db => exact Onward.refl _
  | @cons first last ev evs _ _ ih =>
    refine Onward.trans ⟨Nat.le_succ _, fun t key e he => ?_⟩ ih
    rcases happen_cases first ev t key with ⟨-, -, -, hchanges⟩ | ⟨-, -, hchanges⟩
    · rw [hchanges, Option.some.injEq] at he
      have hseq := (ev.entry_spec (first.seq + 1) ((first.changes t key).getD ⟨0, 0, false⟩)).1
      rw [he] at hseq
      exact Or.inr ⟨by omega, Nat.le_of_eq hseq⟩
    · exact Or.inl (hchanges.symm.trans he)

theorem onward_applyAll {stmts : List (Stmt Table Row)} {db db' : StampDb Table Row} (h : db.applyAll stmts = some db') :
    Onward db db' := by
  induction stmts generalizing db with
  | nil =>
    cases h
    exact Onward.refl _
  | cons s stmts ih =>
    obtain ⟨next, hfirst, hrest⟩ := Option.bind_eq_some_iff.mp h
    refine Onward.trans ?_ (ih hrest)
    cases effect_of_apply hfirst with
    | watched hw h => exact onward_happens h
    | unwatched tables hw hother => exact ⟨Nat.le_refl _, fun _ _ _ he => Or.inl he⟩
    | watch t' heq => exact ⟨Nat.le_refl _, fun _ _ _ he => Or.inl he⟩

theorem onward_commit {db db' : StampDb Table Row} {c : Commit Table Row} (h : db.commit c = some db') : Onward db db' := by
  cases c with
  | txn stmts => exact onward_applyAll h
  | rollback stmts =>
    cases h
    exact Onward.refl _
  | prune below =>
    cases h
    refine ⟨Nat.le_refl _, fun t key e he => Or.inl ?_⟩
    rcases prune_cases db below t key with hkept | ⟨e', -, -, -, hforgotten⟩
    · exact hkept.symm.trans he
    · rw [hforgotten] at he
      cases he

omit [DecidableEq Table] in
/-- **A delta on the copy is the table.** -/
theorem Since.applyDelta {db : StampDb Table Row} (hs : Sound db) (hsince : Since copy t n births db)
    (hfloor : db.floor ≤ n) : db.applyDelta t n copy = db.tables t := by
  funext key
  unfold StampDb.applyDelta
  cases hentry : db.changes t key with
  | none => exact (hsince.same hfloor key fun e he => by rw [hentry] at he; cases he).1.symm
  | some e =>
    dsimp only
    by_cases hlt : n < e.seq
    · rw [if_pos hlt]
      cases hgone : e.gone with
      | true => exact ((hs.lives t key e hentry).mp hgone).symm
      | false => rfl
    · rw [if_neg hlt]
      refine (hsince.same hfloor key fun e' he' => ?_).1.symm
      rw [hentry, Option.some.injEq] at he'
      rw [← he']
      exact Nat.not_lt.mp hlt

theorem onward_run {history : List (Commit Table Row)} {db db' : StampDb Table Row} (h : db.run history = some db') :
    Onward db db' := by
  induction history generalizing db with
  | nil =>
    cases h
    exact Onward.refl _
  | cons c history ih =>
    obtain ⟨next, hfirst, hrest⟩ := Option.bind_eq_some_iff.mp h
    exact (onward_commit hfirst).trans (ih hrest)

/-- **A stamp delta rebuilds the table.** At every boundary of every history at which the table is watched, with no
tombstone pruned above it since: the copy taken there and the entries above its stamp make the table. The stamps given
after a boundary are above all that were given before, and no two entries share one. -/
theorem delta_rebuilds (tables : Table → Int → Option Row) (before after : List (Commit Table Row))
    (past now : StampDb Table Row) (hpast : (StampDb.installed tables).run before = some past)
    (hnow : past.run after = some now) :
    (∀ t, past.watched t = true → now.floor ≤ past.seq → now.applyDelta t past.seq (past.tables t) = now.tables t) ∧
      ((∀ t key e, past.changes t key = some e → e.seq ≤ past.seq) ∧ Onward past now) ∧
      ∀ t key e t' key' e', now.changes t key = some e → now.changes t' key' = some e' → e.seq = e'.seq →
        t = t' ∧ key = key' := by
  have hsound := (sound_installed tables).run hpast
  refine ⟨fun t hwatched hfloor => ?_, ⟨fun t key e he => (hsound.given t key e he).1, onward_run hnow⟩,
    (hsound.run hnow).apart⟩
  exact ((since_copy hsound hwatched).run hsound hnow).applyDelta (hsound.run hnow) hfloor

/-- **The birth of a row tells an insert from an update.** A client with the copy of a boundary holds the row an entry
above it is of, one with that key under which no other has come since, if and only if it was born at or below. -/
theorem born_held (tables : Table → Int → Option Row) (before after : List (Commit Table Row))
    (past now : StampDb Table Row) (hpast : (StampDb.installed tables).run before = some past)
    (hnow : past.run after = some now) (t : Table) (hwatched : past.watched t = true)
    (hfloor : now.floor ≤ past.seq) (key : Int) (e : ChangeEntry) (he : now.changes t key = some e)
    (habove : past.seq < e.seq) :
    (past.tables t key).isSome = true ∧ (¬∃ c ∈ after, c.Bears t key) ↔ e.born ≤ past.seq := by
  have hsound := (sound_installed tables).run hpast
  have hsince := (since_copy hsound hwatched).run hsound hnow
  rw [hsince.told hfloor key e he habove]
  simp

end

/-! ## One table -/

/-- A table with row 1 in it is watched and row 2 comes; then row 1 moves to 3 and row 2 goes. -/
def movedBefore : List (Commit Unit Nat) := [.txn [.insert () 1 10, .watch (), .insert () 2 20]]

def movedAfter : List (Commit Unit Nat) := [.txn [.update () 1 3 11, .delete () 2], .prune 0]

def movedPast : StampDb Unit Nat := ((StampDb.installed fun _ _ => none).run movedBefore).getD (StampDb.installed fun _ _ => none)

def movedNow : StampDb Unit Nat := (movedPast.run movedAfter).getD movedPast

theorem delta_rebuilds_moved : movedNow.applyDelta () 1 (movedPast.tables ()) = movedNow.tables () :=
  (delta_rebuilds (fun _ _ => none) movedBefore movedAfter movedPast movedNow rfl rfl).1 () rfl (by decide)

/-- The row that moved was there before the watch, and was born under its new key. -/
theorem born_held_moved :
    (movedPast.tables () 3).isSome = true ∧ (¬∃ c ∈ movedAfter, c.Bears () 3) ↔ (3 : Nat) ≤ 1 :=
  born_held (fun _ _ => none) movedBefore movedAfter movedPast movedNow rfl rfl () rfl (by decide) 3 ⟨3, 3, false⟩ rfl
    (by decide)

/-- A row goes and another comes under its key. -/
def givenAgain : List (Commit Unit Nat) := [.txn [.delete () 9, .insert () 9 2]]

def againPast : StampDb Unit Nat :=
  ((StampDb.installed fun _ _ => none).run [.txn [.watch (), .insert () 9 1]]).getD (StampDb.installed fun _ _ => none)

def againNow : StampDb Unit Nat := (againPast.run givenAgain).getD againPast

/-- **A key given again**: the client holds a row with that key, and the entry's row was born above its copy. -/
theorem key_given_again : againPast.seq = 1 ∧ againNow.floor ≤ againPast.seq ∧
    againNow.changes () 9 = some ⟨3, 3, false⟩ ∧
    ¬((againPast.tables () 9).isSome = true ↔ (3 : Nat) ≤ againPast.seq) := by
  refine ⟨rfl, by decide, rfl, by decide⟩

end MojoHttp
