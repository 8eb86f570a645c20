import ClockUtils.IniParser.Dictionary
import ClockUtils.Lib.DecimalStream
import ClockUtils.Lib.IntegerType
import Mathlib.Algebra.Ring.Int.Defs

namespace clockUtils.iniParser

open DecimalStream (Extracted Written number)

/-- `stream >> n` for an `int` -/
def extractInt : Bytes → Extracted Int :=
  DecimalStream.extractSigned (-2 ^ 31) (2 ^ 31 - 1)

namespace IniParser

/-- `getValue<T>` of a type that is no enumeration: the error code, and what is in
the caller's variable then, which was `value`. `extract` is the stream operator of
the type. -/
def getValueOf {T : Type} (p : IniParser) (extract : Bytes → Extracted T)
    (sectionName field : Bytes) (value : T) : ClockError × T :=
  match p.data[sectionName]? with
  | none => (.VALUE_NOTFOUND, value)
  | some entries =>
    match entries.find? fun t => t.Matches sectionName field with
    | none => (.VALUE_NOTFOUND, value)
    | some t =>
      (if (extract t.value).good then .SUCCESS else .WRONG_TYPE,
        (extract t.value).stored.getD value)

/-- `getValue<T>` of an enumeration, which is read as an `int`. -/
def getValueOfEnum {T : Type} (p : IniParser) (ofInt : Int → T) (sectionName field : Bytes)
    (value : T) : ClockError × T :=
  match p.data[sectionName]? with
  | none => (.VALUE_NOTFOUND, value)
  | some entries =>
    match entries.find? fun t => t.Matches sectionName field with
    | none => (.VALUE_NOTFOUND, value)
    | some t =>
      match extractInt t.value with
      | ⟨some v, true⟩ => (.SUCCESS, ofInt v)
      | _ => (.WRONG_TYPE, value)

/-- `setValue<T>` with the stream operator of the type. -/
def setValueOf {T : Type} (p : IniParser) (print : T → Bytes) (sectionName field : Bytes)
    (value : T) : Run IniParser :=
  p.setValue sectionName field (print value)

/-- `setValue<T>` of an enumeration. -/
def setValueOfEnum {T : Type} (p : IniParser) (toInt : T → Int) (sectionName field : Bytes)
    (value : T) : Run IniParser :=
  p.setValue sectionName field (DecimalStream.signed (toInt value))

end IniParser

theorem getValueOf_eq {T : Type} (p : IniParser) (extract : Bytes → Extracted T)
    (sectionName field : Bytes) (value : T) :
    p.getValueOf extract sectionName field value =
      match firstValue sectionName field (p.data.vector sectionName) with
      | none => (.VALUE_NOTFOUND, value)
      | some text =>
        (if (extract text).good then .SUCCESS else .WRONG_TYPE,
          (extract text).stored.getD value) := by
  rw [IniParser.getValueOf, VectorMap.vector_eq_getElem?, firstValue]
  cases p.data[sectionName]? with
  | none => rfl
  | some entries =>
    rw [Option.getD_some]
    dsimp only
    cases entries.find? fun t => t.Matches sectionName field with
    | none => rfl
    | some t => rfl

theorem getValueOfEnum_eq {T : Type} (p : IniParser) (ofInt : Int → T)
    (sectionName field : Bytes) (value : T) :
    p.getValueOfEnum ofInt sectionName field value =
      match firstValue sectionName field (p.data.vector sectionName) with
      | none => (.VALUE_NOTFOUND, value)
      | some text =>
        match extractInt text with
        | ⟨some v, true⟩ => (.SUCCESS, ofInt v)
        | _ => (.WRONG_TYPE, value) := by
  rw [IniParser.getValueOfEnum, VectorMap.vector_eq_getElem?, firstValue]
  cases p.data[sectionName]? with
  | none => rfl
  | some entries =>
    rw [Option.getD_some]
    dsimp only
    cases entries.find? fun t => t.Matches sectionName field with
    | none => rfl
    | some t => rfl

/-- What a program gets for an `int`, whatever it has done with the parser: the number
that the field's text writes, if it fits, `WRONG_TYPE` for any other text, and
`VALUE_NOTFOUND`, which leaves its variable alone, exactly if there is no such field. -/
theorem int_access (calls : List Call) (p : IniParser)
    (h : IniParser.fresh.calls calls = .ok p) (sectionName field : Bytes) (value : Int) :
    (∀ n, p.getValueOf extractInt sectionName field value = (.SUCCESS, n) ↔
      ∃ text negative digits,
        ((calls.foldl Contents.call .empty).fields sectionName).get? field = some text ∧
        Written text negative digits ∧ number negative digits = n ∧
        -2 ^ 31 ≤ n ∧ n ≤ 2 ^ 31 - 1) ∧
      ((p.getValueOf extractInt sectionName field value).1 = .VALUE_NOTFOUND ↔
        ((calls.foldl Contents.call .empty).fields sectionName).get? field = none) ∧
      (((calls.foldl Contents.call .empty).fields sectionName).get? field = none →
        p.getValueOf extractInt sectionName field value = (.VALUE_NOTFOUND, value)) := by
  rw [getValueOf_eq, (represents_fresh.calls h).firstValue_eq]
  cases hget : ((calls.foldl Contents.call .empty).fields sectionName).get? field with
  | none => simp
  | some text =>
    dsimp only
    refine ⟨fun n => ?_, ?_, by simp⟩
    · constructor
      · intro hvalue
        rw [Prod.mk.injEq] at hvalue
        obtain ⟨hcode, hstored⟩ := hvalue
        have hgood : (extractInt text).good = true := by
          by_contra hbad
          rw [if_neg hbad] at hcode
          cases hcode
        obtain ⟨m, hm⟩ := DecimalStream.exists_of_extractSigned_good hgood
        have hmn : m = n := by
          rw [extractInt, hm] at hstored
          exact hstored
        obtain ⟨negative, digits, hwritten, hnumber⟩ := DecimalStream.extractSigned_eq_iff.mp hm
        rw [hmn] at hnumber
        exact ⟨text, negative, digits, rfl, hwritten, hnumber⟩
      · rintro ⟨text', negative, digits, htext, hwritten, hnumber⟩
        obtain rfl := Option.some.inj htext
        have hread : extractInt text = ⟨some n, true⟩ :=
          DecimalStream.extractSigned_eq_iff.mpr ⟨negative, digits, hwritten, hnumber⟩
        rw [hread]
        rfl
    · split
      · simp
      · simp

/-- The field ` a= +42` of a file, which is written with white space and a sign. -/
theorem int_access_spaces :
    ∃ p, IniParser.fresh.calls [.load (some [91, 65, 93, 10, 97, 61, 32, 43, 52, 50])] = .ok p ∧
      p.getValueOf extractInt [65] [97] 7 = (.SUCCESS, 42) := by
  have hrun : IniParser.fresh.calls [.load (some [91, 65, 93, 10, 97, 61, 32, 43, 52, 50])] =
      .ok _ := rfl
  have hwritten : Written [32, 43, 52, 50] false [52, 50] :=
    ⟨[32], [43], rfl, by simp [DecimalStream.isSpace], by decide, by decide,
      by simp [DecimalStream.isDigit]⟩
  refine ⟨_, hrun, ((int_access _ _ hrun [65] [97] 7).1 42).mpr
    ⟨[32, 43, 52, 50], false, [52, 50], ?_, hwritten, by decide, by omega, by omega⟩⟩
  rw [← (represents_fresh.calls hrun).firstValue_eq]
  rfl

/-- A call after which the field may have another value. -/
def Call.Touches (sectionName field : Bytes) : Call → Prop
  | .load file => file ≠ none
  | .save _ => False
  | .setValue sectionName' field' _ => sectionName' = sectionName ∧ field' = field
  | .removeEntry sectionName' entry => sectionName' = sectionName ∧ entry = field

theorem Contents.get?_setValue (c : Contents) (sectionName field value otherSection otherField : Bytes) :
    ((c.setValue sectionName field value).fields otherSection).get? otherField =
      if otherSection = sectionName ∧ otherField = field then some value
      else (c.fields otherSection).get? otherField := by
  unfold Contents.setValue
  dsimp only
  by_cases hsection : otherSection = sectionName
  · subst hsection
    rw [Function.update_self, OrderedDict.get?_set]
    simp
  · rw [Function.update_of_ne hsection]
    simp [hsection]

theorem Contents.get?_call (c : Contents) {sectionName field : Bytes} {call : Call}
    (h : ¬ call.Touches sectionName field) :
    ((c.call call).fields sectionName).get? field = (c.fields sectionName).get? field := by
  cases call with
  | load file =>
    obtain rfl := not_not.mp h
    rfl
  | save opened => rfl
  | setValue sectionName' field' value =>
    refine (c.get?_setValue _ _ _ _ _).trans (if_neg ?_)
    rintro ⟨rfl, rfl⟩
    exact h ⟨rfl, rfl⟩
  | removeEntry sectionName' entry =>
    change ((Function.update c.fields sectionName' _) sectionName).get? field = _
    by_cases hsection : sectionName = sectionName'
    · subst hsection
      rw [Function.update_self]
      refine OrderedDict.get?_remove_of_ne _ ?_
      rintro rfl
      exact h ⟨rfl, rfl⟩
    · rw [Function.update_of_ne hsection]

theorem Contents.get?_calls (c : Contents) {sectionName field : Bytes} {calls : List Call}
    (h : ∀ call ∈ calls, ¬ call.Touches sectionName field) :
    ((calls.foldl Contents.call c).fields sectionName).get? field =
      (c.fields sectionName).get? field := by
  induction calls generalizing c with
  | nil => rfl
  | cons call calls ih =>
    rw [List.forall_mem_cons] at h
    rw [List.foldl_cons, ih _ h.2, c.get?_call h.1]

section Kept

variable {before after : List Call} {p q r : IniParser} {sectionName field : Bytes}
  (hbefore : IniParser.fresh.calls before = .ok p) (hafter : q.calls after = .ok r)
  (hkept : ∀ call ∈ after, ¬ call.Touches sectionName field)

include hbefore hafter hkept

/-- A text that was set stays behind calls that do not touch its field. -/
theorem firstValue_kept {text : Bytes} (hset : p.setValue sectionName field text = .ok q) :
    firstValue sectionName field (r.data.vector sectionName) = some text := by
  have hr := ((represents_fresh.calls hbefore).setValue hset).calls hafter
  rw [hr.firstValue_eq, Contents.get?_calls _ hkept, Contents.get?_setValue, if_pos ⟨rfl, rfl⟩]

/-- Any type whose stream operators read what they have written. -/
theorem getValueOf_kept {T : Type} {print : T → Bytes} {extract : Bytes → Extracted T} {v : T}
    (hread : extract (print v) = ⟨some v, true⟩)
    (hset : p.setValueOf print sectionName field v = .ok q) (value : T) :
    r.getValueOf extract sectionName field value = (.SUCCESS, v) := by
  rw [getValueOf_eq, firstValue_kept hbefore hafter hkept hset]
  dsimp only
  rw [hread]
  rfl

end Kept

/-- An `int` that was set is read again, whatever was done with the parser before and
whatever is done with other fields and sections afterwards. So is a value of an
enumeration, which is an `int` on its way: of every enumeration over a type with at
most 32 bits, and of one over a wider type if the value is one of `int`. -/
theorem int_kept (before after : List Call) (p q r : IniParser)
    (hbefore : IniParser.fresh.calls before = .ok p) (sectionName field : Bytes) (n : Int)
    (hlo : -2 ^ 31 ≤ n) (hhi : n ≤ 2 ^ 31 - 1)
    (hset : p.setValueOf DecimalStream.signed sectionName field n = .ok q)
    (hafter : q.calls after = .ok r)
    (hkept : ∀ call ∈ after, ¬ call.Touches sectionName field) :
    (∀ value, r.getValueOf extractInt sectionName field value = (.SUCCESS, n)) ∧
      ∀ (type : IntegerType) (v : Int), type.Holds v →
        (type.bits ≤ 32 ∨ IntegerType.int.Holds v) → IntegerType.int.cast v = n →
          p.setValueOfEnum IntegerType.int.cast sectionName field v = .ok q ∧
            ∀ value, r.getValueOfEnum type.cast sectionName field value = (.SUCCESS, v) := by
  have hread : extractInt (DecimalStream.signed n) = ⟨some n, true⟩ :=
    DecimalStream.extractSigned_signed hlo hhi
  refine ⟨getValueOf_kept hbefore hafter hkept hread hset, ?_⟩
  intro type v hholds hfits hcast
  constructor
  · rw [IniParser.setValueOfEnum, hcast]
    exact hset
  · intro value
    rw [getValueOfEnum_eq, firstValue_kept hbefore hafter hkept hset]
    dsimp only
    have hback : type.cast n = v := by
      rw [← hcast]
      exact IntegerType.cast_cast .int nofun hholds hfits
    rw [hread]
    exact congrArg _ hback

/-- `-7` is set in a new section, another field behind it, and the parser is saved: it is
read as an `int` and as a value of an enumeration over `int8_t`. -/
theorem int_kept_negative :
    ∃ q r, IniParser.fresh.setValueOf DecimalStream.signed [65] [97] (-7) = .ok q ∧
      q.calls [.setValue [65] [98] [49], .save true] = .ok r ∧
      r.getValueOf extractInt [65] [97] 0 = (.SUCCESS, -7) ∧
      r.getValueOfEnum (IntegerType.signed 7).cast [65] [97] 0 = (.SUCCESS, -7) := by
  obtain ⟨q, r, hset, hafter⟩ : ∃ q r,
      IniParser.fresh.setValueOf DecimalStream.signed [65] [97] (-7) = .ok q ∧
        q.calls [.setValue [65] [98] [49], .save true] = .ok r := ⟨_, _, rfl, rfl⟩
  obtain ⟨hread, henum⟩ := int_kept [] _ _ q r rfl [65] [97] (-7) (by omega) (by omega) hset
    hafter (by simp [Call.Touches])
  refine ⟨q, r, hset, hafter, hread 0, (henum (.signed 7) (-7) ?_ ?_ rfl).2 0⟩
  · simp [IntegerType.Holds]
  · simp [IntegerType.bits]

end clockUtils.iniParser
