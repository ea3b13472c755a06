import Mathlib.Data.List.Basic
import Mathlib.Tactic.IntervalCases
import Quorum.Address.Reader

set_option autoImplicit false

/-! # Addresses are read back

The written form of an address is read as this address. For version 4 this is a matter of its
numbers. For version 6 it does not depend on which run of zero groups the writer chooses: the
groups before `::` and those behind it are read as they are, and as many zeros are put between them
as are missing. What remains to be seen is that no group is taken for a part of a version 4
address, and where the readers stop. -/

namespace Quorum

/-! ## Numbers -/

theorem digitValue?_digitChar {radix digit : Nat} (hradix : radix ≤ 16) (h : digit < radix) :
    digitValue? radix digit.digitChar = some digit := by
  have hdigit : digit < 16 := Nat.lt_of_lt_of_le h hradix
  interval_cases digit <;> exact if_pos h

/-- A number is written as digits that make it up, without a superfluous zero before them. -/
theorem exists_digits (radix : Nat) (hradix : 1 < radix) (n : Nat) :
    ∃ digits : List Nat, Nat.toDigits radix n = digits.map Nat.digitChar ∧
      (∀ digit ∈ digits, digit < radix) ∧
      digits.foldl (fun n digit => radix * n + digit) 0 = n ∧
      (digits.head? = some 0 → n = 0) := by
  induction n using Nat.base_induction radix hradix with
  | single digit hdigit =>
    refine ⟨[digit], Nat.toDigits_of_lt_base hdigit, by simpa using hdigit, by simp, ?_⟩
    exact fun hhead => Option.some.inj hhead
  | digit more digit hdigit hmore ih =>
    obtain ⟨digits, htext, hdigits, hvalue, hhead⟩ := ih
    refine ⟨digits ++ [digit], ?_, ?_, ?_, fun hzero => ?_⟩
    · rw [← Nat.toDigits_append_toDigits hradix hmore hdigit, htext,
        Nat.toDigits_of_lt_base hdigit, List.map_append, List.map_singleton]
    · exact List.forall_mem_append.2 ⟨hdigits, by simpa using hdigit⟩
    · rw [List.foldl_append, hvalue]
      rfl
    · have hne : digits ≠ [] := by
        rintro rfl
        exact Nat.toDigits_ne_nil htext
      rw [List.head?_append_of_ne_nil _ hne] at hzero
      exact absurd (hhead hzero) hmore.ne'

/-- The text does not begin with a digit. -/
def NoDigit (radix : Nat) (text : List Char) : Prop :=
  ∀ c ∈ text.head?, digitValue? radix c = none

theorem digitValues_of_noDigit {radix : Nat} {text : List Char} (h : NoDigit radix text) :
    digitValues radix text = [] := by
  cases text with
  | nil => rfl
  | cons c text => rw [digitValues, h c rfl]

theorem digitValues_append {radix : Nat} (hradix : radix ≤ 16) {digits : List Nat}
    (hdigits : ∀ digit ∈ digits, digit < radix) {rest : List Char} (hrest : NoDigit radix rest) :
    digitValues radix (digits.map Nat.digitChar ++ rest) = digits := by
  induction digits with
  | nil => exact digitValues_of_noDigit hrest
  | cons digit digits ih =>
    have ⟨hdigit, hmore⟩ := List.forall_mem_cons.1 hdigits
    rw [List.map_cons, List.cons_append, digitValues, digitValue?_digitChar hradix hdigit,
      ih hmore]

/-- A number that is small enough is read back, up to where its digits end. -/
theorem readNumber_append {radix limit n : Nat} (hradix : 1 < radix ∧ radix ≤ 16)
    (hlimit : n < limit) {maxDigits : Option Nat}
    (hmax : ∀ most ∈ maxDigits, (Nat.toDigits radix n).length ≤ most) (zeros : Bool)
    {rest : List Char} (hrest : NoDigit radix rest) :
    readNumber radix limit maxDigits zeros (Nat.toDigits radix n ++ rest) = some (n, rest) := by
  obtain ⟨digits, htext, hdigits, hvalue, hhead⟩ := exists_digits radix hradix.1 n
  have hread : digitValues radix (Nat.toDigits radix n ++ rest) = digits := by
    rw [htext, digitValues_append hradix.2 hdigits hrest]
  have hlength : (Nat.toDigits radix n).length = digits.length := by
    rw [htext, List.length_map]
  have hne : digits ≠ [] := by
    rintro rfl
    exact Nat.toDigits_ne_nil htext
  have hmost : maxDigits.any (· < digits.length) = false := by
    cases maxDigits with
    | none => rfl
    | some most => simpa [← hlength] using hmax most rfl
  have hzero : 1 < digits.length → digits.head? ≠ some 0 := by
    intro hlong hfirst
    obtain rfl := hhead hfirst
    rw [← hlength, Nat.toDigits_zero] at hlong
    exact absurd hlong (by decide)
  unfold readNumber
  simp only [hread, hvalue]
  rw [if_neg]
  · rw [← hlength, List.drop_left]
  · simpa [hne, hmost, hlimit] using fun _ => hzero

/-! ## Version 4 -/

theorem Ipv4.toList_toText (address : Ipv4) :
    address.toText.toList =
      Nat.toDigits 10 address.a.toNat ++ '.' :: (Nat.toDigits 10 address.b.toNat ++
        '.' :: (Nat.toDigits 10 address.c.toNat ++
          '.' :: Nat.toDigits 10 address.d.toNat)) := by
  have hdot : (toString ".").toList = ['.'] := rfl
  simp [Ipv4.toText, hdot]

theorem noDigit_cons {radix : Nat} {c : Char} (hc : digitValue? radix c = none)
    (text : List Char) : NoDigit radix (c :: text) := by
  rintro _ ⟨⟩
  exact hc

theorem readOctet_append (octet : UInt8) {rest : List Char} (hrest : NoDigit 10 rest) :
    readOctet (Nat.toDigits 10 octet.toNat ++ rest) = some (octet, rest) := by
  have hlength : (Nat.toDigits 10 octet.toNat).length ≤ 3 :=
    (Nat.length_toDigits_le_iff (by decide) (by decide)).2
      (Nat.lt_trans octet.toNat_lt (by decide))
  rw [readOctet, readNumber_append (by decide) octet.toNat_lt (by simpa using hlength) false hrest]
  simp

/-- A version 4 address is read back, up to where the digits of its last part end. -/
theorem readIpv4_append (address : Ipv4) {rest : List Char} (hrest : NoDigit 10 rest) :
    readIpv4 (address.toText.toList ++ rest) = some (address, rest) := by
  have hdot (text : List Char) : NoDigit 10 ('.' :: text) := noDigit_cons (by decide) text
  simp [address.toList_toText, readIpv4, readOctet_append, hdot, readChar, hrest]

theorem readPort_digits (port : UInt16) :
    readPort (':' :: Nat.toDigits 10 port.toNat) = some (port, []) := by
  have hread : readDecimal 0x10000 (Nat.toDigits 10 port.toNat) = some (port.toNat, []) := by
    have hnothing : NoDigit 10 [] := nofun
    have hnumber : readDecimal 0x10000 (Nat.toDigits 10 port.toNat ++ []) =
        some (port.toNat, []) :=
      readNumber_append (by decide) port.toNat_lt (by simp) true hnothing
    rwa [List.append_nil] at hnumber
  simp [readPort, readChar, hread]

/-! ## Groups -/

/-- What can stand behind a group. -/
def Separated (text : List Char) : Prop := ∃ c ∈ [':', ']', '%'], text.head? = some c

theorem Separated.noDigit {text : List Char} (h : Separated text) (radix : Nat) :
    NoDigit radix text := by
  obtain ⟨c, hc, hhead⟩ := h
  rintro _ hother
  obtain rfl := Option.some.inj (hhead.symm.trans hother)
  simp only [List.mem_cons, List.not_mem_nil, or_false] at hc
  obtain rfl | rfl | rfl := hc <;> simp [digitValue?]

theorem Separated.head?_ne {text : List Char} (h : Separated text) : text.head? ≠ some '.' := by
  obtain ⟨c, hc, hhead⟩ := h
  rw [hhead]
  rintro ⟨⟩
  exact absurd hc (by decide)

theorem rest_of_readOctet {text rest : List Char} {octet : UInt8}
    (h : readOctet text = some (octet, rest)) :
    rest = text.drop (digitValues 10 text).length := by
  obtain ⟨⟨n, left⟩, hnumber, heq⟩ := Option.map_eq_some_iff.1 h
  obtain rfl := (Prod.mk.inj heq).2
  unfold readNumber at hnumber
  simp only at hnumber
  split at hnumber
  · cases hnumber
  · exact (Prod.mk.inj (Option.some.inj hnumber)).2.symm

theorem readChar_eq_none {c : Char} {text : List Char} (h : text.head? ≠ some c) :
    readChar c text = none := by
  cases text with
  | nil => rfl
  | cons first text => exact if_neg fun heq => h (congrArg some heq)

/-- A text is no version 4 address where no dot stands behind its first digits. -/
theorem readIpv4_eq_none {text : List Char}
    (h : (text.drop (digitValues 10 text).length).head? ≠ some '.') : readIpv4 text = none := by
  unfold readIpv4
  cases hoctet : readOctet text with
  | none => rfl
  | some found =>
    obtain ⟨octet, rest⟩ := found
    obtain rfl := rest_of_readOctet hoctet
    simp [readChar_eq_none h]

theorem digitValue?_of_mem_toDigits {n : Nat} {c : Char} (hc : c ∈ Nat.toDigits 16 n) :
    digitValue? 16 c ≠ none := by
  obtain ⟨digits, htext, hdigits, -, -⟩ := exists_digits 16 (by decide) n
  rw [htext] at hc
  obtain ⟨digit, hdigit, rfl⟩ := List.mem_map.1 hc
  rw [digitValue?_digitChar (by decide) (hdigits digit hdigit)]
  exact Option.some_ne_none digit

/-- A word without dots is not taken for the beginning of a version 4 address. -/
theorem readIpv4_append_eq_none (word : List Char) {rest : List Char} (hword : '.' ∉ word)
    (hrest : Separated rest) : readIpv4 (word ++ rest) = none := by
  apply readIpv4_eq_none
  induction word with
  | nil =>
    rw [List.nil_append, digitValues_of_noDigit (hrest.noDigit _)]
    exact hrest.head?_ne
  | cons c word ih =>
    have hc : '.' ≠ c := List.ne_of_not_mem_cons hword
    have hmore : '.' ∉ word := List.not_mem_of_not_mem_cons hword
    rw [List.cons_append, digitValues]
    cases digitValue? 10 c with
    | none => simpa using Ne.symm hc
    | some value => exact ih hmore

theorem readGroup_append (group : UInt16) {rest : List Char} (hrest : Separated rest) :
    readGroup (Nat.toDigits 16 group.toNat ++ rest) = some (group, rest) := by
  have hlength : (Nat.toDigits 16 group.toNat).length ≤ 4 :=
    (Nat.length_toDigits_le_iff (by decide) (by decide)).2 group.toNat_lt
  rw [readGroup, readNumber_append (by decide) group.toNat_lt (by simpa using hlength) true
    (hrest.noDigit _)]
  simp

/-- Groups, each behind a colon. -/
def colonGroups (groups : List UInt16) : List Char :=
  groups.flatMap fun group => ':' :: Nat.toDigits 16 group.toNat

theorem toList_groupsText_cons (group : UInt16) (groups : List UInt16) :
    (groupsText (group :: groups)).toList =
      Nat.toDigits 16 group.toNat ++ colonGroups groups := by
  induction groups generalizing group with
  | nil => simp [groupsText, groupText, colonGroups]
  | cons next groups ih =>
    have hnext := ih next
    simp only [groupsText, String.toList_intercalate, List.map_cons] at hnext ⊢
    rw [List.intercalate_cons_cons, hnext]
    simp [groupText, colonGroups]

/-- What can stand behind a sequence of groups. -/
inductive Closing : List Char → Prop
  | bracket (rest : List Char) : Closing (']' :: rest)
  | percent (rest : List Char) : Closing ('%' :: rest)
  | colons (rest : List Char) : Closing (':' :: ':' :: rest)

theorem Closing.separated {text : List Char} (h : Closing text) : Separated text := by
  cases h <;> exact ⟨_, by decide, rfl⟩

theorem separated_colonGroups (groups : List UInt16) {rest : List Char} (hrest : Closing rest) :
    Separated (colonGroups groups ++ rest) := by
  cases groups with
  | nil => exact hrest.separated
  | cons group groups => exact ⟨':', by decide, rfl⟩

/-- One more group. -/
theorem readGroups_succ (first : Bool) {text rest : List Char} {group : UInt16}
    (htext : readColon first text = some (Nat.toDigits 16 group.toNat ++ rest))
    (hrest : Separated rest) (count : Nat) :
    readGroups (count + 1) first text =
      let (groups, dotted, rest) := readGroups count false rest
      (group :: groups, dotted, rest) := by
  have hdot : '.' ∉ Nat.toDigits 16 group.toNat := fun hmem =>
    digitValue?_of_mem_toDigits hmem (by decide)
  rw [readGroups, htext, Option.bind_some, Option.bind_some, readIpv4_append_eq_none _ hdot hrest,
    readGroup_append group hrest, ite_self]

/-- No more groups. -/
theorem readGroups_stop (first : Bool) {text : List Char}
    (htext : ∀ body, readColon first text = some body → Separated body) (count : Nat) :
    readGroups count first text = ([], false, text) := by
  cases count with
  | zero => rfl
  | succ count =>
    rw [readGroups]
    cases hbody : readColon first text with
    | none => simp
    | some body =>
      have hseparated := htext body hbody
      have hgroup : readGroup body = none := by
        simp [readGroup, readNumber, digitValues_of_noDigit (hseparated.noDigit 16)]
      have hdotted : readIpv4 body = none :=
        readIpv4_append_eq_none [] List.not_mem_nil hseparated
      simp [hgroup, hdotted]

theorem readGroups_colonGroups {groups : List UInt16} {count : Nat} (hcount : groups.length ≤ count)
    {rest : List Char} (hrest : Closing rest) :
    readGroups count false (colonGroups groups ++ rest) = (groups, false, rest) := by
  induction groups generalizing count with
  | nil =>
    refine readGroups_stop _ (fun body hbody => ?_) count
    cases hrest with
    | bracket rest => nomatch hbody
    | percent rest => nomatch hbody
    | colons rest =>
      obtain rfl := Option.some.inj hbody
      exact ⟨':', by decide, rfl⟩
  | cons group groups ih =>
    obtain ⟨count, rfl⟩ := Nat.exists_eq_add_one.2 (Nat.lt_of_lt_of_le (Nat.succ_pos _) hcount)
    have htext : readColon false (colonGroups (group :: groups) ++ rest) =
        some (Nat.toDigits 16 group.toNat ++ (colonGroups groups ++ rest)) := by
      simp [colonGroups, readColon, readChar]
    rw [readGroups_succ _ htext (separated_colonGroups groups hrest),
      ih (Nat.le_of_succ_le_succ hcount)]

/-- Groups are read back, if there are not too many. -/
theorem readGroups_groupsText {groups : List UInt16} {count : Nat}
    (hcount : groups.length ≤ count) {rest : List Char} (hrest : Closing rest) :
    readGroups count true ((groupsText groups).toList ++ rest) = (groups, false, rest) := by
  cases groups with
  | nil =>
    refine readGroups_stop _ (fun body hbody => ?_) count
    obtain rfl := Option.some.inj hbody
    exact hrest.separated
  | cons group groups =>
    obtain ⟨count, rfl⟩ := Nat.exists_eq_add_one.2 (Nat.lt_of_lt_of_le (Nat.succ_pos _) hcount)
    have htext : readColon true ((groupsText (group :: groups)).toList ++ rest) =
        some (Nat.toDigits 16 group.toNat ++ (colonGroups groups ++ rest)) := by
      rw [toList_groupsText_cons, List.append_assoc]
      rfl
    rw [readGroups_succ _ htext (separated_colonGroups groups hrest),
      readGroups_colonGroups (Nat.le_of_succ_le_succ hcount) hrest]

/-! ## Version 6 -/

/-- Where `longestZeroRun` points to, there are zeros. -/
theorem zeros_longestZeroRun {groups rest : List UInt16} {position : Nat} (start length : Nat)
    (hrest : groups.drop position = rest) (hposition : start + length = position)
    (hle : position ≤ groups.length)
    (hzeros : (groups.drop start).take length = List.replicate length 0) :
    let run := longestZeroRun position start length rest
    run.1 + run.2 ≤ groups.length ∧
      (groups.drop run.1).take run.2 = List.replicate run.2 0 := by
  induction rest generalizing position start length with
  | nil => exact ⟨hposition ▸ hle, hzeros⟩
  | cons group rest ih =>
    have hgroup : groups[position]? = some group := by
      rw [← List.head?_drop, hrest, List.head?_cons]
    have hnext : groups.drop (position + 1) = rest := by
      rw [← List.drop_drop, hrest, List.drop_one, List.tail_cons]
    have hless : position + 1 ≤ groups.length := (List.getElem?_eq_some_iff.1 hgroup).1
    rw [longestZeroRun]
    split
    · next hzero =>
      refine ih start (length + 1) hnext (by omega) hless ?_
      rw [List.take_add_one, hzeros, List.getElem?_drop, hposition, hgroup, hzero,
        List.replicate_succ']
      rfl
    · have hlater := ih (position + 1) 0 hnext rfl hless rfl
      simp only
      split
      · exact ⟨hposition ▸ hle, hzeros⟩
      · exact hlater

/-- A sequence of groups is what stands before the zeros, the zeros and what stands behind. -/
theorem exists_zeros (groups : List UInt16) :
    let run := longestZeroRun 0 0 0 groups
    run.1 + run.2 ≤ groups.length ∧
      groups = groups.take run.1 ++ List.replicate run.2 0 ++ groups.drop (run.1 + run.2) := by
  have hrest : groups.drop 0 = groups := List.drop_zero
  have hzeros := zeros_longestZeroRun 0 0 hrest rfl (Nat.zero_le _) rfl
  refine ⟨hzeros.1, ?_⟩
  rw [← hzeros.2, List.append_assoc, ← List.drop_drop, List.take_append_drop,
    List.take_append_drop]

/-- Groups around `::` are read with the zeros between them. -/
theorem readIpv6_compressed (head tail : List UInt16) {zeros : Nat}
    (hlength : head.length + zeros + tail.length = 8) (hzeros : 2 ≤ zeros) {rest : List Char}
    (hrest : Closing rest) :
    readIpv6 ((groupsText head).toList ++ ':' :: ':' :: ((groupsText tail).toList ++ rest)) =
      some (head ++ List.replicate zeros 0 ++ tail, rest) := by
  have hhead : readGroups 8 true
      ((groupsText head).toList ++ ':' :: ':' :: ((groupsText tail).toList ++ rest)) =
      (head, false, ':' :: ':' :: ((groupsText tail).toList ++ rest)) :=
    readGroups_groupsText (by omega) (.colons _)
  have htail : readGroups (7 - head.length) true ((groupsText tail).toList ++ rest) =
      (tail, false, rest) := readGroups_groupsText (by omega) hrest
  have hmissing : 8 - head.length - tail.length = zeros := by omega
  have hless : head.length ≠ 8 := by omega
  simp [readIpv6, hhead, htail, hmissing, hless, readChar]

theorem readIpv6_groups {groups : List UInt16} (hlength : groups.length = 8) {rest : List Char}
    (hrest : Closing rest) :
    readIpv6 ((groupsText groups).toList ++ rest) = some (groups, rest) := by
  rw [readIpv6, readGroups_groupsText (Nat.le_of_eq hlength) hrest]
  exact if_pos hlength

/-- A group is put together from its halves. -/
theorem halves (group : UInt16) :
    (group >>> 8).toUInt8.toUInt16 <<< 8 ||| group.toUInt8.toUInt16 = group := by
  have hgroup := group.toNat_lt
  have hhigh : group.toNat >>> 8 % 256 = group.toNat / 256 := by
    rw [Nat.shiftRight_eq_div_pow]
    omega
  have hshift : (group.toNat / 256) <<< 8 % 65536 = (group.toNat / 256) <<< 8 := by
    rw [Nat.shiftLeft_eq]
    omega
  have hlow : group.toNat % 256 < 2 ^ 8 := Nat.mod_lt _ (by decide)
  apply UInt16.toNat_inj.1
  simp only [UInt16.toNat_or, UInt16.toNat_shiftLeft, UInt8.toNat_toUInt16, UInt16.toNat_toUInt8,
    UInt16.toNat_shiftRight, UInt16.reduceToNat, Nat.reduceMod, Nat.reducePow, hhigh, hshift]
  rw [← Nat.shiftLeft_add_eq_or_of_lt hlow, Nat.shiftLeft_eq]
  omega

/-- The last groups can be given as a version 4 address. -/
theorem readGroups_dotted {count : Nat} (hcount : count ≠ 0) (address : Ipv4) {rest : List Char}
    (hrest : NoDigit 10 rest) :
    readGroups (count + 1) false (':' :: (address.toText.toList ++ rest)) =
      (address.groups, true, rest) := by
  rw [readGroups, if_neg hcount]
  simp [readColon, readChar, readIpv4_append address hrest]

/-- An address that stands for one of version 4 is read from its dotted form. -/
theorem readIpv6_dotted (address : Ipv4) {rest : List Char} (hrest : NoDigit 10 rest) :
    readIpv6 ("::ffff:".toList ++ (address.toText.toList ++ rest)) =
      some ([0, 0, 0, 0, 0, 0xFFFF] ++ address.groups, rest) := by
  have hcolons (body : List Char) : Separated (':' :: body) := ⟨':', by decide, rfl⟩
  have hhead (body : List Char) : readGroups 8 true (':' :: body) = ([], false, ':' :: body) :=
    readGroups_stop true (fun _ hbody => Option.some.inj hbody ▸ hcolons body) 8
  have hword : ['f', 'f', 'f', 'f'] = Nat.toDigits 16 (0xFFFF : UInt16).toNat := by decide
  obtain ⟨body, htext, hbody⟩ : ∃ body,
      "::ffff:".toList ++ (address.toText.toList ++ rest) = ':' :: ':' :: body ∧
        readGroups 7 true body = (0xFFFF :: address.groups, true, rest) := by
    refine ⟨['f', 'f', 'f', 'f'] ++ ':' :: (address.toText.toList ++ rest), by simp, ?_⟩
    rw [hword, readGroups_succ true rfl (hcolons _),
      readGroups_dotted (by decide) address hrest]
  have hlength : (0xFFFF :: address.groups).length = 3 := rfl
  rw [htext, readIpv6, hhead]
  simp [readChar, hbody, hlength]

/-- A version 6 address is read back from its written form. -/
theorem readIpv6_ipv6Text {groups : List UInt16} (hlength : groups.length = 8) {rest : List Char}
    (hrest : Closing rest) :
    readIpv6 ((ipv6Text groups).toList ++ rest) = some (groups, rest) := by
  unfold ipv6Text
  split
  · next high low =>
    rw [String.toList_append, List.append_assoc,
      readIpv6_dotted _ (hrest.separated.noDigit 10), Ipv4.groups, halves, halves]
    rfl
  · have hzeros := exists_zeros groups
    generalize longestZeroRun 0 0 0 groups = run at hzeros
    obtain ⟨start, length⟩ := run
    obtain ⟨hle, hzeros⟩ := hzeros
    simp only at hle hzeros ⊢
    split
    · next hlong =>
      have height : (groups.take start).length + length +
          (groups.drop (start + length)).length = 8 := by
        rw [List.length_take, List.length_drop]
        omega
      have hread := readIpv6_compressed (groups.take start) (groups.drop (start + length)) height
        hlong hrest
      rw [← hzeros] at hread
      simpa using hread
    · exact readIpv6_groups hlength hrest

/-! ## With a port -/

/-- How the scope of a version 6 address is shown. -/
def scopeChars (scope : UInt32) : List Char :=
  if scope = 0 then [] else '%' :: Nat.toDigits 10 scope.toNat

theorem readScope_append (scope : UInt32) (rest : List Char) :
    readScope (scopeChars scope ++ ']' :: rest) = (scope, ']' :: rest) := by
  unfold scopeChars
  split
  · next hzero => rw [hzero]; rfl
  · have hread : readDecimal 0x100000000 (Nat.toDigits 10 scope.toNat ++ ']' :: rest) =
        some (scope.toNat, ']' :: rest) :=
      readNumber_append (by decide) scope.toNat_lt (by simp) true
        (noDigit_cons (by decide) rest)
    simp [readScope, readChar, hread]

theorem closing_scopeChars (scope : UInt32) (rest : List Char) :
    Closing (scopeChars scope ++ ']' :: rest) := by
  unfold scopeChars
  split
  · exact .bracket rest
  · exact .percent _

theorem SocketAddress.toList_toText_v4 (address : Ipv4) (port : UInt16) :
    (toText (.v4 address port)).toList =
      address.toText.toList ++ ':' :: Nat.toDigits 10 port.toNat := by
  have hself (text : String) : toString text = text := rfl
  simp [toText, hself]

theorem SocketAddress.toList_toText_v6 (groups : List UInt16) (scope : UInt32) (port : UInt16) :
    (toText (.v6 groups scope port)).toList =
      '[' :: ((ipv6Text groups).toList ++ (scopeChars scope ++
        ']' :: ':' :: Nat.toDigits 10 port.toNat)) := by
  have hself (text : String) : toString text = text := rfl
  by_cases hscope : scope = 0
  · simp [toText, hself, scopeChars, hscope]
  · simp [toText, hself, scopeChars, hscope]

/-- A version 6 address has eight groups. -/
def SocketAddress.IsProper : SocketAddress → Prop
  | .v4 .. => True
  | .v6 groups .. => groups.length = 8

/-- An address is read back from its written form. -/
theorem SocketAddress.ofText?_toText {address : SocketAddress} (h : address.IsProper) :
    ofText? address.toText = some address := by
  cases address with
  | v4 address port =>
    have hread : readSocketV4 (address.toText.toList ++ ':' :: Nat.toDigits 10 port.toNat) =
        some (.v4 address port, []) := by
      have hcolon : NoDigit 10 (':' :: Nat.toDigits 10 port.toNat) := noDigit_cons (by decide) _
      simp [readSocketV4, readIpv4_append address hcolon, readPort_digits]
    unfold ofText?
    simp [toList_toText_v4, hread]
  | v6 groups scope port =>
    have hv4 (rest : List Char) : readSocketV4 ('[' :: rest) = none := by
      have hnone : digitValues 10 ('[' :: rest) = [] :=
        digitValues_of_noDigit (noDigit_cons (by decide) rest)
      have hdot : ('[' :: rest).head? ≠ some '.' := by simp
      rw [readSocketV4, readIpv4_eq_none (by rwa [hnone])]
      rfl
    have hread : readSocketV6 ('[' :: ((ipv6Text groups).toList ++ (scopeChars scope ++
        ']' :: ':' :: Nat.toDigits 10 port.toNat))) = some (.v6 groups scope port, []) := by
      simp [readSocketV6, readChar, readIpv6_ipv6Text h (closing_scopeChars scope _),
        readScope_append, readPort_digits]
    unfold ofText?
    simp [toList_toText_v6, hv4, hread]

theorem length_readGroups_le (count : Nat) (first : Bool) (text : List Char) :
    (readGroups count first text).1.length ≤ count := by
  induction count generalizing first text with
  | zero => exact Nat.le_refl _
  | succ count ih =>
    rw [readGroups]
    split
    · next address rest hdotted =>
      split at hdotted
      · cases hdotted
      · next hcount =>
        show 2 ≤ count + 1
        omega
    · split
      · exact Nat.succ_le_succ (ih ..)
      · exact Nat.zero_le _

/-- What is read has eight groups. -/
theorem length_of_readIpv6 {text rest : List Char} {groups : List UInt16}
    (h : readIpv6 text = some (groups, rest)) : groups.length = 8 := by
  have hhead := length_readGroups_le 8 true text
  unfold readIpv6 at h
  generalize readGroups 8 true text = found at h hhead
  obtain ⟨head, dotted, left⟩ := found
  simp only at h hhead
  split at h
  · next hlength =>
    obtain ⟨rfl, -⟩ := Prod.mk.inj (Option.some.inj h)
    exact hlength
  · next hlength =>
    split at h
    · cases h
    · obtain ⟨body, -, heq⟩ := Option.map_eq_some_iff.1 h
      obtain ⟨rfl, -⟩ := Prod.mk.inj heq
      have htail := length_readGroups_le (7 - head.length) true body
      simp only [List.length_append, List.length_replicate]
      omega

theorem SocketAddress.isProper_of_readSocketV4 {text rest : List Char} {address : SocketAddress}
    (h : readSocketV4 text = some (address, rest)) : address.IsProper := by
  unfold readSocketV4 at h
  obtain ⟨_, -, h⟩ := Option.bind_eq_some_iff.1 h
  obtain ⟨_, -, h⟩ := Option.bind_eq_some_iff.1 h
  obtain ⟨rfl, -⟩ := Prod.mk.inj (Option.some.inj h)
  trivial

theorem SocketAddress.isProper_of_readSocketV6 {text rest : List Char} {address : SocketAddress}
    (h : readSocketV6 text = some (address, rest)) : address.IsProper := by
  unfold readSocketV6 at h
  obtain ⟨_, -, h⟩ := Option.bind_eq_some_iff.1 h
  obtain ⟨⟨groups, _⟩, hgroups, h⟩ := Option.bind_eq_some_iff.1 h
  obtain ⟨_, -, h⟩ := Option.bind_eq_some_iff.1 h
  obtain ⟨_, -, h⟩ := Option.bind_eq_some_iff.1 h
  obtain ⟨rfl, -⟩ := Prod.mk.inj (Option.some.inj h)
  exact length_of_readIpv6 hgroups

theorem SocketAddress.isProper_of_ofText? {text : String} {address : SocketAddress}
    (h : ofText? text = some address) : address.IsProper := by
  unfold ofText? at h
  split at h
  · next found hfound =>
    obtain rfl := Option.some.inj h
    rcases (Option.orElse_eq_some ..).1 hfound with hv4 | ⟨-, hv6⟩
    · exact isProper_of_readSocketV4 hv4
    · exact isProper_of_readSocketV6 hv6
  · cases h

end Quorum
