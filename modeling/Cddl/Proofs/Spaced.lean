import Cddl.Proofs.Loosened.Ended
import Cddl.Proofs.Phrase.Apart
/-!
# Ranges with and without blanks

A range means the same with blanks around its operator as without (`parse_spaced`), but for two places where a token in
front looks at what is right behind it.  As the key of the entry that a rule is defined as, a range in one token lets
the arrow be seen from the equals sign, and one in three does not.  Right behind an asterisk, the lower literal of a
range in three tokens is an upper bound of the occurrence, and that of a range in one is not.
-/
namespace Cddl

open Production

variable {source : Text} {d : Document} {t t' u u' a b c : Token} {ts ts' before after after' : List Token}
  {lower upper : Literal} {inclusive : Bool} {k : Int} {stop : Location}

/-- Whether a range between some tokens is the key of the entry that a rule is defined as. -/
def keysRule (before after : List Token) : Bool :=
  before.getLast?.any fun s => s.is .assign && (nextIs .arrow after || nextIs .cut after)

/-- Whether a range stands right behind an asterisk and has an unsigned integer as its lower literal. -/
def besideAsterisk (before : List Token) (t : Token) : Bool :=
  match t.body with
  | .range (.uint _) _ _ => before.getLast?.any fun s => s.is .asterisk && s.stop.offset = t.location.offset
  | _ => false

/-! ## Tokens in front of a range -/

/-- What is seen of a range from the token in front of it. -/
theorem kept_before_range (body : t.body = .range lower upper inclusive) (first : a.body = .value lower)
    (place : a.location = t.location) (operator : b.is .rangeOperator = true) (behind : FollowsType after)
    (key : keysRule [u] after = false) (bound : besideAsterisk [u] t = false) :
    u.Kept u (t :: after) (a :: b :: ts') := by
  refine ⟨rfl, rfl, fun star => ?_, fun assigned => ?_⟩
  · have none : uintAt? u.stop t = none := by rw [uintAt?, body]
    rw [joinedTo, joinedTo, List.head?_cons, List.head?_cons, Option.bind_some, Option.bind_some, none, uintAt?, first]
    cases lower with
    | uint n =>
      have apart : a.location.offset ≠ u.stop.offset := by
        rw [place]
        simpa [besideAsterisk, body, star, eq_comm] using bound
      simp only [if_neg apart]
    | _ => rfl
  · have free : nextIsKeyEnd after = false := by
      have ends : (nextIs .arrow after || nextIs .cut after) = false := by simpa [keysRule, assigned] using key
      rw [Bool.or_eq_false_iff] at ends
      rw [nextIsKeyEnd, behind.2, ends.1, ends.2]
      rfl
    have mark := Token.not_is_any_of_body first (fun _ h => by cases h)
    have mark' {m : Mark} (hm : Mark.rangeOperator ≠ m) := Token.not_is operator hm
    rw [not_beginsGroupEntry_of_range body free, beginsGroupEntry_of_not_is
      ⟨mark' (by decide), mark' (by decide), mark' (by decide), mark' (by decide)⟩, startsOccurrence, mark, mark, mark]
    rfl

/-- A range is taken apart between the same tokens and others further on. -/
theorem Loosened.of_range (body : t.body = .range lower upper inclusive) (first : a.body = .value lower)
    (place : a.location = t.location) (operator : operatorSymbol? b = some (.range inclusive))
    (last : c.body = .value upper) (behind : FollowsType after) (more : Loosened after after') : ∀ before : List Token,
    keysRule before after = false → besideAsterisk before t = false →
      Loosened (before ++ t :: after) (before ++ a :: b :: c :: after')
  | [], _, _ => .range body first operator last more
  | [u], key, bound =>
    .same (kept_before_range body first place (is_rangeOperator operator) behind key bound)
      (.range body first operator last more)
  | u :: v :: before, key, bound => by
    have key' : keysRule (v :: before) after = false := by
      rwa [keysRule, List.getLast?_cons_cons] at key
    have bound' : besideAsterisk (v :: before) t = false := by
      simpa only [besideAsterisk, List.getLast?_cons_cons] using bound
    refine .same ⟨rfl, rfl, fun _ => rfl, fun _ => ?_⟩
      (of_range body first place operator last behind more _ key' bound')
    cases before with
    | nil =>
      have mark := Token.not_is_any_of_body body (fun _ h => by cases h)
      have mark' := Token.not_is_any_of_body first (fun _ h => by cases h)
      exact (beginsGroupEntry_of_not_is ⟨mark' _, mark' _, mark' _, mark' _⟩).trans
        (beginsGroupEntry_of_not_is ⟨mark _, mark _, mark _, mark _⟩).symm
    | cons => rfl

/-! ## Texts -/

theorem nextIs_ended {m : Mark} {e : Token} (ts : List Token) : nextIs m (ts ++ [e, e]) = nextIs m (ts ++ [e]) := by
  cases ts <;> rfl

/-- What stands behind a token other than the end of input goes up to the end of input. -/
theorem exists_behind {l : Location} (range : t.isRange = true) (h : before ++ t :: after = ts ++ [.endAt l]) :
    ∃ us, after = us ++ [.endAt l] ∧ ts = before ++ t :: us := by
  rcases List.eq_nil_or_concat after with rfl | ⟨us, e, rfl⟩
  · obtain rfl := (List.cons.inj (List.append_inj' h rfl).2).1
    cases range
  · rw [List.concat_eq_append, ← List.cons_append, ← List.append_assoc] at h
    obtain ⟨rfl, last⟩ := List.append_inj' h rfl
    exact ⟨us, by rw [List.concat_eq_append, last], rfl⟩

/-- **A text that can be read can be read with blanks around the operator of a range too, and means the same**, unless
the range is the key of an entry that a rule is defined as, or stands right behind an asterisk. -/
theorem parse_spaced (h : parse source = .ok d) (read : tokenize source = .ok (before ++ t :: after))
    (range : t.isRange = true) (key : keysRule before after = false) (bound : besideAsterisk before t = false) :
    ∃ d', parse (spaceOut source t) = .ok d' ∧ d'.erase = d.erase := by
  obtain ⟨lower, upper, inclusive, body⟩ := Token.exists_range range
  obtain ⟨ts, l, run, rules⟩ := Cursor.Run.ended_of_parse h
  have same : before ++ t :: after = ts ++ [.endAt l] := Except.ok.inj (read.symm.trans run.tokenize_ok)
  obtain ⟨us, rfl, rfl⟩ := exists_behind range same
  -- a range is a whole type, so the operator that it holds is the only one
  have ends : FollowsType [.endAt l, .endAt l] := followsType_of_is (m := .endOfInput) rfl (by decide)
  have behind : FollowsType (us ++ [.endAt l, .endAt l]) := (rangesApart_append.1 (rules.rangesApart ends)).2.1 range
  have free : nextIs .rangeOperator (us ++ [.endAt l]) = false := by
    rw [← nextIs_ended]
    exact behind.1
  rw [← same] at run
  obtain ⟨_, run', @⟨a, b, c, after', first, place, operator, last, moved⟩⟩ := run.spaceOut body free
  have split : before ++ a :: b :: c :: after' = before ++ [a, b, c] ++ after' := by simp
  rw [split] at run'
  obtain ⟨us', l', rfl, twice⟩ := run'.exists_ended moved
  have key' : keysRule before (us ++ [.endAt l, .endAt l]) = false := by
    simpa only [keysRule, nextIs_ended] using key
  have loose := Loosened.of_range body first place operator last behind (.of_moved twice) before key' bound
  have whole : before ++ t :: (us ++ [.endAt l, .endAt l]) = before ++ t :: us ++ [.endAt l, .endAt l] := by simp
  have whole' : before ++ a :: b :: c :: (us' ++ [.endAt l', .endAt l']) =
      before ++ [a, b, c] ++ us' ++ [.endAt l', .endAt l'] := by simp
  rw [whole, whole'] at loose
  obtain ⟨rs, hrs, rules'⟩ := rules.survives_ended loose
  rw [← List.append_assoc] at run'
  obtain ⟨d', parsed, rfl⟩ := run'.exists_parse rules'
  exact ⟨d', parsed, by rw [Document.erase, Document.erase, hrs]⟩

/-- A range that is a key, but not that of a rule. -/
theorem parse_spaced_sample : ∃ d before t after, parse "m = {1..2 => int}" = .ok d ∧
    tokenize "m = {1..2 => int}" = .ok (before ++ t :: after) ∧ t.isRange = true ∧ keysRule before after = false ∧
      besideAsterisk before t = false ∧
        ∃ d', parse (spaceOut "m = {1..2 => int}" t) = .ok d' ∧ d'.erase = d.erase := by
  have read : ∃ d, parse "m = {1..2 => int}" = .ok d := exists_parse_of_within (n := 8) (by decide +kernel)
  obtain ⟨d, h⟩ := read
  have run : (Cursor.start "m = {1..2 => int}").Run ([_, _, _] ++ _ :: [_, _, _, _]) none :=
    .token rfl rfl (.token rfl rfl (.token rfl rfl (.token rfl rfl (.token rfl rfl (.token rfl rfl (.token rfl rfl
      (.ended rfl rfl)))))))
  exact ⟨d, _, _, _, h, run.tokenize_ok, rfl, rfl, rfl, parse_spaced h run.tokenize_ok rfl rfl rfl⟩

/-- Blanks in the key of a rule hide the arrow, and blanks behind an asterisk set a bound. -/
theorem not_parse_spaced : (∃ d before t after, parse "g = 1..2 => int" = .ok d ∧
    tokenize "g = 1..2 => int" = .ok (before ++ t :: after) ∧ t.isRange = true ∧ keysRule before after = true ∧
      ∀ d', parse (spaceOut "g = 1..2 => int" t) ≠ .ok d') ∧
    ∃ d before t after, parse "a = [*1..2]" = .ok d ∧ tokenize "a = [*1..2]" = .ok (before ++ t :: after) ∧
      t.isRange = true ∧ besideAsterisk before t = true ∧ ∀ d', parse (spaceOut "a = [*1..2]" t) ≠ .ok d' := by
  have key : ∃ d, parse "g = 1..2 => int" = .ok d := exists_parse_of_within (n := 6) (by decide +kernel)
  have bound : ∃ d, parse "a = [*1..2]" = .ok d := exists_parse_of_within (n := 8) (by decide +kernel)
  obtain ⟨d, h⟩ := key
  obtain ⟨d', h'⟩ := bound
  have run : (Cursor.start "g = 1..2 => int").Run ([_, _] ++ _ :: [_, _, _]) none :=
    .token rfl rfl (.token rfl rfl (.token rfl rfl (.token rfl rfl (.token rfl rfl (.ended rfl rfl)))))
  have run' : (Cursor.start "a = [*1..2]").Run ([_, _, _, _] ++ _ :: [_, _]) none :=
    .token rfl rfl (.token rfl rfl (.token rfl rfl (.token rfl rfl (.token rfl rfl (.token rfl rfl (.ended rfl rfl))))))
  refine ⟨⟨d, _, _, _, h, run.tokenize_ok, rfl, rfl, ?_⟩, d', _, _, _, h', run'.tokenize_ok, rfl, rfl, ?_⟩
  · exact not_parse_of_within (n := 8) (by decide +kernel)
  · exact not_parse_of_within (n := 9) (by decide +kernel)

end Cddl
