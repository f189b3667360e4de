import MojoHttp.Header.LineBytes

/-!
# HTTP dates (`http/date.mojo`)

`http_date_from_unix` formats what `gmtime_r` answers. The C call is a parameter; whatever it
answers, the date is printable ASCII.
-/

namespace MojoHttp

/-- The fields of `struct tm` a date is made of. -/
structure Tm where
  sec : Int
  min : Int
  hour : Int
  mday : Int
  /-- From 0. -/
  mon : Int
  /-- Since 1900. -/
  year : Int
  /-- 0 is Sunday. -/
  wday : Int
  deriving Repr, DecidableEq

/-- What the C library answers: `time(NULL)`, and `gmtime_r`, NULL on failure. -/
structure Clock where
  time : Int
  gmtimeR : Int → Option Tm

def wdayStr (wday : Int) : Bytes :=
  if wday = 0 then ascii "Sun"
  else if wday = 1 then ascii "Mon"
  else if wday = 2 then ascii "Tue"
  else if wday = 3 then ascii "Wed"
  else if wday = 4 then ascii "Thu"
  else if wday = 5 then ascii "Fri"
  else ascii "Sat"

def monStr (mon : Int) : Bytes :=
  if mon = 0 then ascii "Jan"
  else if mon = 1 then ascii "Feb"
  else if mon = 2 then ascii "Mar"
  else if mon = 3 then ascii "Apr"
  else if mon = 4 then ascii "May"
  else if mon = 5 then ascii "Jun"
  else if mon = 6 then ascii "Jul"
  else if mon = 7 then ascii "Aug"
  else if mon = 8 then ascii "Sep"
  else if mon = 9 then ascii "Oct"
  else if mon = 10 then ascii "Nov"
  else ascii "Dec"

/-- Two digits, zero-padded. -/
def twoDigits (x : Int) : Bytes := if x ≥ 10 then intText x else ascii "0" ++ intText x

/-- `http_date_from_unix`. -/
def httpDateFromUnix (clock : Clock) (t : Int) : Bytes :=
  match clock.gmtimeR t with
  | none => ascii "Thu, 01 Jan 1970 00:00:00 GMT"
  | some tm =>
    wdayStr tm.wday ++ ascii ", " ++ twoDigits tm.mday ++ ascii " " ++ monStr tm.mon ++
      ascii " " ++ intText (tm.year + 1900) ++ ascii " " ++ twoDigits tm.hour ++ ascii ":" ++
      twoDigits tm.min ++ ascii ":" ++ twoDigits tm.sec ++ ascii " GMT"

/-- `http_date_now`. -/
def httpDateNow (clock : Clock) : Bytes := httpDateFromUnix clock clock.time

/-! ## Dates are printable -/

/-- Printable ASCII. -/
def Printable (s : Bytes) : Prop := ∀ b ∈ s, 0x20 ≤ b ∧ b < 0x7F

instance (s : Bytes) : Decidable (Printable s) := List.decidableBAll _ s

theorem Printable.append {a b : Bytes} (ha : Printable a) (hb : Printable b) :
    Printable (a ++ b) := List.forall_mem_append.mpr ⟨ha, hb⟩

theorem Printable.clean {s : Bytes} (h : Printable s) : Clean s := by
  have hbyte : ∀ b : UInt8, 0x20 ≤ b ∧ b < 0x7F → breaksLine b = false :=
    forall_byte (P := fun b => 0x20 ≤ b ∧ b < 0x7F → breaksLine b = false) (by decide)
  exact fun b hb => hbyte b (h b hb)

theorem Printable.lt {s : Bytes} (h : Printable s) : ∀ b ∈ s, b < 0x80 := by
  have hbyte : ∀ b : UInt8, b < 0x7F → b < 0x80 :=
    forall_byte (P := fun b => b < 0x7F → b < 0x80) (by decide)
  exact fun b hb => hbyte b (h b hb).2

theorem printable_intText (x : Int) : Printable (intText x) := by
  have hbyte : ∀ b : UInt8, 0x30 ≤ b ∧ b ≤ 0x39 → 0x20 ≤ b ∧ b < 0x7F :=
    forall_byte (P := fun b => 0x30 ≤ b ∧ b ≤ 0x39 → 0x20 ≤ b ∧ b < 0x7F) (by decide)
  have hdec : ∀ n, Printable (decimal n) := fun n b hb => hbyte b (decimal_digits n b hb)
  unfold intText
  split
  · exact List.forall_mem_cons.mpr ⟨by decide, hdec _⟩
  · exact hdec _

theorem printable_twoDigits (x : Int) : Printable (twoDigits x) := by
  unfold twoDigits
  split
  · exact printable_intText x
  · exact Printable.append (by decide) (printable_intText x)

theorem Printable.ite {p : Prop} [Decidable p] {a b : Bytes} (ha : Printable a) (hb : Printable b) :
    Printable (if p then a else b) := by
  split
  · exact ha
  · exact hb

theorem printable_wdayStr (wday : Int) : Printable (wdayStr wday) := by
  unfold wdayStr
  repeat' apply Printable.ite
  all_goals decide

theorem printable_monStr (mon : Int) : Printable (monStr mon) := by
  unfold monStr
  repeat' apply Printable.ite
  all_goals decide

/-- **A date is printable ASCII**, whatever the C library answers. -/
theorem printable_httpDateNow (clock : Clock) : Printable (httpDateNow clock) := by
  unfold httpDateNow httpDateFromUnix
  cases clock.gmtimeR clock.time with
  | none => decide
  | some tm =>
    have hlit : ∀ s ∈ [ascii ", ", ascii " ", ascii ":", ascii " GMT"], Printable s := by
      decide
    have hcomma := hlit (ascii ", ") (by simp)
    have hspace := hlit (ascii " ") (by simp)
    have hcolon := hlit (ascii ":") (by simp)
    have hgmt := hlit (ascii " GMT") (by simp)
    exact ((((((((((((printable_wdayStr tm.wday).append hcomma).append
      (printable_twoDigits tm.mday)).append hspace).append (printable_monStr tm.mon)).append
      hspace).append (printable_intText (tm.year + 1900))).append hspace).append
      (printable_twoDigits tm.hour)).append hcolon).append (printable_twoDigits tm.min)).append
      hcolon).append (printable_twoDigits tm.sec) |>.append hgmt

end MojoHttp
