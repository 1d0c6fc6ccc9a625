import LoadGenerator.Proofs.Data.SortedMap
import LoadGenerator.Proofs.Scenario.Cookies
import LoadGenerator.Scenario.Request

namespace LoadGenerator.RequestTemplate

open Http Bytes

variable {t : RequestTemplate} {fill : Bytes → Bytes} {jar : CookieJar} {own cookies : List Bytes}

def otherHeaders (t : RequestTemplate) (fill : Bytes → Bytes) : Headers :=
  (t.headers.filter fun (name, _) => !isCookie name).map fun (name, v) => (name, fill v)

/-- What the template says of cookies, under whatever spellings of the name. -/
def ownCookies (t : RequestTemplate) (fill : Bytes → Bytes) : List Bytes :=
  (t.headers.filter fun (name, _) => isCookie name).map fun (_, v) => fill v

def cookieHeader (cookies : List Bytes) : Headers :=
  if cookies = [] then [] else [(utf8 "Cookie", join (utf8 "; ") cookies)]

theorem sorted_otherHeaders (h : SortedMap.Sorted t.headers) :
    SortedMap.Sorted (otherHeaders t fill) := SortedMap.sorted_map (h.filter _) fill

theorem ownCookie?_map : ownCookie? (t.headers.map fun (name, v) => (name, fill v)) =
    (ownCookies t fill).getLast? := by
  rw [ownCookie?, List.filter_map, List.getLast?_map, Option.map_map, ownCookies, List.getLast?_map]
  rfl

theorem toList_joinCookies (own jar : Option Bytes) :
    ((joinCookies own jar).map fun v => (utf8 "Cookie", v)).toList =
      cookieHeader (own.toList ++ jar.toList) := by
  cases own <;> cases jar <;> simp [joinCookies, cookieHeader, join]

theorem headers_build (t : RequestTemplate) (baseUrl : Bytes) (timeoutMs : Int)
    (fill : Bytes → Bytes) (jar : CookieJar) :
    (t.build baseUrl timeoutMs fill jar).headers = otherHeaders t fill ++
      cookieHeader ((ownCookies t fill).getLast?.toList ++ jar.header?.toList) := by
  rw [build]
  dsimp only
  rw [ownCookie?_map, toList_joinCookies, List.filter_map]
  rfl

theorem cookieHeader_inj : cookieHeader own = cookieHeader cookies →
    join (utf8 "; ") own = join (utf8 "; ") cookies := by
  unfold cookieHeader
  split <;> split <;> simp_all

theorem cookieHeader_getLast?_iff :
    cookieHeader (own.getLast?.toList ++ cookies) = cookieHeader (own ++ cookies) ↔
      own.length ≤ 1 := by
  rcases List.eq_nil_or_concat own with rfl | ⟨earlier, last, rfl⟩
  · simp
  · cases earlier with
    | nil => simp
    | cons first earlier =>
      refine ⟨fun h => ?_, fun h => ?_⟩
      · -- the separator after the first cookie has nowhere to go
        have hjoin := congrArg List.length (cookieHeader_inj h)
        rw [List.concat_eq_append, List.getLast?_concat, List.append_assoc,
          join_append _ (List.cons_ne_nil _ _) (by simp)] at hjoin
        have hsep : (utf8 "; ").length = 2 := by decide
        simp [hsep] at hjoin
        omega
      · simp at h

theorem cookieHeader_eq_nil : cookieHeader cookies = [] ↔ cookies = [] := by
  simp [cookieHeader]

/-- The request has the headers of the template that are not about cookies, in the order of their
names, and then one for all cookies, of the template and of the jar. Nothing that the template says
is missing there exactly if it names its cookies at most once. -/
theorem build_keeps_headers_iff (t : RequestTemplate) (baseUrl : Bytes) (timeoutMs : Int)
    (fill : Bytes → Bytes) (jar : CookieJar) :
    let cookie := cookieHeader ((ownCookies t fill).getLast?.toList ++ jar.header?.toList)
    (t.build baseUrl timeoutMs fill jar).headers = otherHeaders t fill ++ cookie ∧
    (SortedMap.Sorted t.headers → SortedMap.Sorted (otherHeaders t fill)) ∧
    (cookie ≠ [] ↔ (∃ h ∈ t.headers, isCookie h.1 = true) ∨ jar ≠ []) ∧
    (cookie = cookieHeader (ownCookies t fill ++ jar.header?.toList) ↔
      (ownCookies t fill).length ≤ 1) := by
  refine ⟨headers_build t baseUrl timeoutMs fill jar, sorted_otherHeaders, ?_,
    cookieHeader_getLast?_iff⟩
  have hown : ownCookies t fill ≠ [] ↔ ∃ h ∈ t.headers, isCookie h.1 = true := by
    simp [ownCookies]
  have hjar : jar.header? ≠ none ↔ jar ≠ [] := CookieJar.header?_eq_none.not
  have hnil : (ownCookies t fill).getLast?.toList ++ jar.header?.toList = [] ↔
      ownCookies t fill = [] ∧ jar.header? = none := by simp
  rw [Ne, cookieHeader_eq_nil, hnil, not_and_or]
  exact or_congr hown hjar

theorem build_keeps_headers_iff_one_cookie :
    let t : RequestTemplate :=
      { method := utf8 "GET", path := utf8 "/", body := none
        headers := [(utf8 "Accept", utf8 "*/*"), (utf8 "COOKIE", utf8 "a=1"), (utf8 "X-Id", [])] }
    let jar : CookieJar := [(utf8 "sid", utf8 "2")]
    SortedMap.Sorted t.headers ∧ SortedMap.Sorted (otherHeaders t id) ∧
    (t.build [] 0 id jar).headers =
      otherHeaders t id ++ cookieHeader (ownCookies t id ++ jar.header?.toList) := by
  intro t jar
  have hsorted : SortedMap.Sorted t.headers := by unfold SortedMap.Sorted; decide
  obtain ⟨hheaders, hothers, -, hkept⟩ := build_keeps_headers_iff t [] 0 id jar
  exact ⟨hsorted, hothers hsorted, hheaders.trans (congrArg _ (hkept.mpr (by decide)))⟩

/-- Under two spellings of its name, the first cookie of a template is lost. -/
theorem exists_cookie_lost : ∃ t : RequestTemplate, SortedMap.Sorted t.headers ∧
    ownCookies t id = [utf8 "b=2", utf8 "c=3"] ∧
    (t.build [] 0 id [(utf8 "j", utf8 "1")]).headers = [(utf8 "Cookie", utf8 "c=3; j=1")] := by
  refine ⟨{ method := utf8 "GET", path := utf8 "/", body := none
            headers := [(utf8 "Cookie", utf8 "b=2"), (utf8 "cookie", utf8 "c=3")] }, ?_, ?_, ?_⟩
  · unfold SortedMap.Sorted
    decide
  · decide
  · decide

end LoadGenerator.RequestTemplate
