import FastFirebird.MessageCodec
import FastFirebird.DecFloatExponent

/-! `types/zoned-date.ts` and `types/timezones.ts`: time zone ids and their names. -/
namespace FastFirebird.Msgcodec

/-- The table of `types/timezones.ts`; the name at `i` is that of zone id `65535 - i`. -/
def timeZoneNames : List String := [
  "GMT", "ACT", "AET", "AGT", "ART", "AST", "Africa/Abidjan", "Africa/Accra", "Africa/Addis_Ababa",
  "Africa/Algiers", "Africa/Asmara", "Africa/Asmera", "Africa/Bamako", "Africa/Bangui",
  "Africa/Banjul", "Africa/Bissau", "Africa/Blantyre", "Africa/Brazzaville", "Africa/Bujumbura",
  "Africa/Cairo", "Africa/Casablanca", "Africa/Ceuta", "Africa/Conakry", "Africa/Dakar",
  "Africa/Dar_es_Salaam", "Africa/Djibouti", "Africa/Douala", "Africa/El_Aaiun", "Africa/Freetown",
  "Africa/Gaborone", "Africa/Harare", "Africa/Johannesburg", "Africa/Juba", "Africa/Kampala",
  "Africa/Khartoum", "Africa/Kigali", "Africa/Kinshasa", "Africa/Lagos", "Africa/Libreville",
  "Africa/Lome", "Africa/Luanda", "Africa/Lubumbashi", "Africa/Lusaka", "Africa/Malabo",
  "Africa/Maputo", "Africa/Maseru", "Africa/Mbabane", "Africa/Mogadishu", "Africa/Monrovia",
  "Africa/Nairobi", "Africa/Ndjamena", "Africa/Niamey", "Africa/Nouakchott", "Africa/Ouagadougou",
  "Africa/Porto-Novo", "Africa/Sao_Tome", "Africa/Timbuktu", "Africa/Tripoli", "Africa/Tunis",
  "Africa/Windhoek", "America/Adak", "America/Anchorage", "America/Anguilla", "America/Antigua",
  "America/Araguaina", "America/Argentina/Buenos_Aires", "America/Argentina/Catamarca",
  "America/Argentina/ComodRivadavia", "America/Argentina/Cordoba", "America/Argentina/Jujuy",
  "America/Argentina/La_Rioja", "America/Argentina/Mendoza", "America/Argentina/Rio_Gallegos",
  "America/Argentina/Salta", "America/Argentina/San_Juan", "America/Argentina/San_Luis",
  "America/Argentina/Tucuman", "America/Argentina/Ushuaia", "America/Aruba", "America/Asuncion",
  "America/Atikokan", "America/Atka", "America/Bahia", "America/Bahia_Banderas", "America/Barbados",
  "America/Belem", "America/Belize", "America/Blanc-Sablon", "America/Boa_Vista", "America/Bogota",
  "America/Boise", "America/Buenos_Aires", "America/Cambridge_Bay", "America/Campo_Grande",
  "America/Cancun", "America/Caracas", "America/Catamarca", "America/Cayenne", "America/Cayman",
  "America/Chicago", "America/Chihuahua", "America/Coral_Harbour", "America/Cordoba",
  "America/Costa_Rica", "America/Creston", "America/Cuiaba", "America/Curacao",
  "America/Danmarkshavn", "America/Dawson", "America/Dawson_Creek", "America/Denver",
  "America/Detroit", "America/Dominica", "America/Edmonton", "America/Eirunepe",
  "America/El_Salvador", "America/Ensenada", "America/Fort_Nelson", "America/Fort_Wayne",
  "America/Fortaleza", "America/Glace_Bay", "America/Godthab", "America/Goose_Bay",
  "America/Grand_Turk", "America/Grenada", "America/Guadeloupe", "America/Guatemala",
  "America/Guayaquil", "America/Guyana", "America/Halifax", "America/Havana", "America/Hermosillo",
  "America/Indiana/Indianapolis", "America/Indiana/Knox", "America/Indiana/Marengo",
  "America/Indiana/Petersburg", "America/Indiana/Tell_City", "America/Indiana/Vevay",
  "America/Indiana/Vincennes", "America/Indiana/Winamac", "America/Indianapolis", "America/Inuvik",
  "America/Iqaluit", "America/Jamaica", "America/Jujuy", "America/Juneau",
  "America/Kentucky/Louisville", "America/Kentucky/Monticello", "America/Knox_IN",
  "America/Kralendijk", "America/La_Paz", "America/Lima", "America/Los_Angeles",
  "America/Louisville", "America/Lower_Princes", "America/Maceio", "America/Managua",
  "America/Manaus", "America/Marigot", "America/Martinique", "America/Matamoros",
  "America/Mazatlan", "America/Mendoza", "America/Menominee", "America/Merida",
  "America/Metlakatla", "America/Mexico_City", "America/Miquelon", "America/Moncton",
  "America/Monterrey", "America/Montevideo", "America/Montreal", "America/Montserrat",
  "America/Nassau", "America/New_York", "America/Nipigon", "America/Nome", "America/Noronha",
  "America/North_Dakota/Beulah", "America/North_Dakota/Center", "America/North_Dakota/New_Salem",
  "America/Ojinaga", "America/Panama", "America/Pangnirtung", "America/Paramaribo",
  "America/Phoenix", "America/Port-au-Prince", "America/Port_of_Spain", "America/Porto_Acre",
  "America/Porto_Velho", "America/Puerto_Rico", "America/Punta_Arenas", "America/Rainy_River",
  "America/Rankin_Inlet", "America/Recife", "America/Regina", "America/Resolute",
  "America/Rio_Branco", "America/Rosario", "America/Santa_Isabel", "America/Santarem",
  "America/Santiago", "America/Santo_Domingo", "America/Sao_Paulo", "America/Scoresbysund",
  "America/Shiprock", "America/Sitka", "America/St_Barthelemy", "America/St_Johns",
  "America/St_Kitts", "America/St_Lucia", "America/St_Thomas", "America/St_Vincent",
  "America/Swift_Current", "America/Tegucigalpa", "America/Thule", "America/Thunder_Bay",
  "America/Tijuana", "America/Toronto", "America/Tortola", "America/Vancouver", "America/Virgin",
  "America/Whitehorse", "America/Winnipeg", "America/Yakutat", "America/Yellowknife",
  "Antarctica/Casey", "Antarctica/Davis", "Antarctica/DumontDUrville", "Antarctica/Macquarie",
  "Antarctica/Mawson", "Antarctica/McMurdo", "Antarctica/Palmer", "Antarctica/Rothera",
  "Antarctica/South_Pole", "Antarctica/Syowa", "Antarctica/Troll", "Antarctica/Vostok",
  "Arctic/Longyearbyen", "Asia/Aden", "Asia/Almaty", "Asia/Amman", "Asia/Anadyr", "Asia/Aqtau",
  "Asia/Aqtobe", "Asia/Ashgabat", "Asia/Ashkhabad", "Asia/Atyrau", "Asia/Baghdad", "Asia/Bahrain",
  "Asia/Baku", "Asia/Bangkok", "Asia/Barnaul", "Asia/Beirut", "Asia/Bishkek", "Asia/Brunei",
  "Asia/Calcutta", "Asia/Chita", "Asia/Choibalsan", "Asia/Chongqing", "Asia/Chungking",
  "Asia/Colombo", "Asia/Dacca", "Asia/Damascus", "Asia/Dhaka", "Asia/Dili", "Asia/Dubai",
  "Asia/Dushanbe", "Asia/Famagusta", "Asia/Gaza", "Asia/Harbin", "Asia/Hebron", "Asia/Ho_Chi_Minh",
  "Asia/Hong_Kong", "Asia/Hovd", "Asia/Irkutsk", "Asia/Istanbul", "Asia/Jakarta", "Asia/Jayapura",
  "Asia/Jerusalem", "Asia/Kabul", "Asia/Kamchatka", "Asia/Karachi", "Asia/Kashgar",
  "Asia/Kathmandu", "Asia/Katmandu", "Asia/Khandyga", "Asia/Kolkata", "Asia/Krasnoyarsk",
  "Asia/Kuala_Lumpur", "Asia/Kuching", "Asia/Kuwait", "Asia/Macao", "Asia/Macau", "Asia/Magadan",
  "Asia/Makassar", "Asia/Manila", "Asia/Muscat", "Asia/Nicosia", "Asia/Novokuznetsk",
  "Asia/Novosibirsk", "Asia/Omsk", "Asia/Oral", "Asia/Phnom_Penh", "Asia/Pontianak",
  "Asia/Pyongyang", "Asia/Qatar", "Asia/Qyzylorda", "Asia/Rangoon", "Asia/Riyadh", "Asia/Saigon",
  "Asia/Sakhalin", "Asia/Samarkand", "Asia/Seoul", "Asia/Shanghai", "Asia/Singapore",
  "Asia/Srednekolymsk", "Asia/Taipei", "Asia/Tashkent", "Asia/Tbilisi", "Asia/Tehran",
  "Asia/Tel_Aviv", "Asia/Thimbu", "Asia/Thimphu", "Asia/Tokyo", "Asia/Tomsk", "Asia/Ujung_Pandang",
  "Asia/Ulaanbaatar", "Asia/Ulan_Bator", "Asia/Urumqi", "Asia/Ust-Nera", "Asia/Vientiane",
  "Asia/Vladivostok", "Asia/Yakutsk", "Asia/Yangon", "Asia/Yekaterinburg", "Asia/Yerevan",
  "Atlantic/Azores", "Atlantic/Bermuda", "Atlantic/Canary", "Atlantic/Cape_Verde",
  "Atlantic/Faeroe", "Atlantic/Faroe", "Atlantic/Jan_Mayen", "Atlantic/Madeira",
  "Atlantic/Reykjavik", "Atlantic/South_Georgia", "Atlantic/St_Helena", "Atlantic/Stanley",
  "Australia/ACT", "Australia/Adelaide", "Australia/Brisbane", "Australia/Broken_Hill",
  "Australia/Canberra", "Australia/Currie", "Australia/Darwin", "Australia/Eucla",
  "Australia/Hobart", "Australia/LHI", "Australia/Lindeman", "Australia/Lord_Howe",
  "Australia/Melbourne", "Australia/NSW", "Australia/North", "Australia/Perth",
  "Australia/Queensland", "Australia/South", "Australia/Sydney", "Australia/Tasmania",
  "Australia/Victoria", "Australia/West", "Australia/Yancowinna", "BET", "BST", "Brazil/Acre",
  "Brazil/DeNoronha", "Brazil/East", "Brazil/West", "CAT", "CET", "CNT", "CST", "CST6CDT", "CTT",
  "Canada/Atlantic", "Canada/Central", "Canada/East-Saskatchewan", "Canada/Eastern",
  "Canada/Mountain", "Canada/Newfoundland", "Canada/Pacific", "Canada/Saskatchewan", "Canada/Yukon",
  "Chile/Continental", "Chile/EasterIsland", "Cuba", "EAT", "ECT", "EET", "EST", "EST5EDT", "Egypt",
  "Eire", "Etc/GMT", "Etc/GMT+0", "Etc/GMT+1", "Etc/GMT+10", "Etc/GMT+11", "Etc/GMT+12",
  "Etc/GMT+2", "Etc/GMT+3", "Etc/GMT+4", "Etc/GMT+5", "Etc/GMT+6", "Etc/GMT+7", "Etc/GMT+8",
  "Etc/GMT+9", "Etc/GMT-0", "Etc/GMT-1", "Etc/GMT-10", "Etc/GMT-11", "Etc/GMT-12", "Etc/GMT-13",
  "Etc/GMT-14", "Etc/GMT-2", "Etc/GMT-3", "Etc/GMT-4", "Etc/GMT-5", "Etc/GMT-6", "Etc/GMT-7",
  "Etc/GMT-8", "Etc/GMT-9", "Etc/GMT0", "Etc/Greenwich", "Etc/UCT", "Etc/UTC", "Etc/Universal",
  "Etc/Zulu", "Europe/Amsterdam", "Europe/Andorra", "Europe/Astrakhan", "Europe/Athens",
  "Europe/Belfast", "Europe/Belgrade", "Europe/Berlin", "Europe/Bratislava", "Europe/Brussels",
  "Europe/Bucharest", "Europe/Budapest", "Europe/Busingen", "Europe/Chisinau", "Europe/Copenhagen",
  "Europe/Dublin", "Europe/Gibraltar", "Europe/Guernsey", "Europe/Helsinki", "Europe/Isle_of_Man",
  "Europe/Istanbul", "Europe/Jersey", "Europe/Kaliningrad", "Europe/Kiev", "Europe/Kirov",
  "Europe/Lisbon", "Europe/Ljubljana", "Europe/London", "Europe/Luxembourg", "Europe/Madrid",
  "Europe/Malta", "Europe/Mariehamn", "Europe/Minsk", "Europe/Monaco", "Europe/Moscow",
  "Europe/Nicosia", "Europe/Oslo", "Europe/Paris", "Europe/Podgorica", "Europe/Prague",
  "Europe/Riga", "Europe/Rome", "Europe/Samara", "Europe/San_Marino", "Europe/Sarajevo",
  "Europe/Saratov", "Europe/Simferopol", "Europe/Skopje", "Europe/Sofia", "Europe/Stockholm",
  "Europe/Tallinn", "Europe/Tirane", "Europe/Tiraspol", "Europe/Ulyanovsk", "Europe/Uzhgorod",
  "Europe/Vaduz", "Europe/Vatican", "Europe/Vienna", "Europe/Vilnius", "Europe/Volgograd",
  "Europe/Warsaw", "Europe/Zagreb", "Europe/Zaporozhye", "Europe/Zurich", "Factory", "GB",
  "GB-Eire", "GMT+0", "GMT-0", "GMT0", "Greenwich", "HST", "Hongkong", "IET", "IST", "Iceland",
  "Indian/Antananarivo", "Indian/Chagos", "Indian/Christmas", "Indian/Cocos", "Indian/Comoro",
  "Indian/Kerguelen", "Indian/Mahe", "Indian/Maldives", "Indian/Mauritius", "Indian/Mayotte",
  "Indian/Reunion", "Iran", "Israel", "JST", "Jamaica", "Japan", "Kwajalein", "Libya", "MET", "MIT",
  "MST", "MST7MDT", "Mexico/BajaNorte", "Mexico/BajaSur", "Mexico/General", "NET", "NST", "NZ",
  "NZ-CHAT", "Navajo", "PLT", "PNT", "PRC", "PRT", "PST", "PST8PDT", "Pacific/Apia",
  "Pacific/Auckland", "Pacific/Bougainville", "Pacific/Chatham", "Pacific/Chuuk", "Pacific/Easter",
  "Pacific/Efate", "Pacific/Enderbury", "Pacific/Fakaofo", "Pacific/Fiji", "Pacific/Funafuti",
  "Pacific/Galapagos", "Pacific/Gambier", "Pacific/Guadalcanal", "Pacific/Guam", "Pacific/Honolulu",
  "Pacific/Johnston", "Pacific/Kiritimati", "Pacific/Kosrae", "Pacific/Kwajalein", "Pacific/Majuro",
  "Pacific/Marquesas", "Pacific/Midway", "Pacific/Nauru", "Pacific/Niue", "Pacific/Norfolk",
  "Pacific/Noumea", "Pacific/Pago_Pago", "Pacific/Palau", "Pacific/Pitcairn", "Pacific/Pohnpei",
  "Pacific/Ponape", "Pacific/Port_Moresby", "Pacific/Rarotonga", "Pacific/Saipan", "Pacific/Samoa",
  "Pacific/Tahiti", "Pacific/Tarawa", "Pacific/Tongatapu", "Pacific/Truk", "Pacific/Wake",
  "Pacific/Wallis", "Pacific/Yap", "Poland", "Portugal", "ROC", "ROK", "SST", "Singapore",
  "SystemV/AST4", "SystemV/AST4ADT", "SystemV/CST6", "SystemV/CST6CDT", "SystemV/EST5",
  "SystemV/EST5EDT", "SystemV/HST10", "SystemV/MST7", "SystemV/MST7MDT", "SystemV/PST8",
  "SystemV/PST8PDT", "SystemV/YST9", "SystemV/YST9YDT", "Turkey", "UCT", "US/Alaska", "US/Aleutian",
  "US/Arizona", "US/Central", "US/East-Indiana", "US/Eastern", "US/Hawaii", "US/Indiana-Starke",
  "US/Michigan", "US/Mountain", "US/Pacific", "US/Pacific-New", "US/Samoa", "UTC", "Universal",
  "VST", "W-SU", "WET", "Zulu", "America/Nuuk", "Asia/Qostanay", "Pacific/Kanton", "Europe/Kyiv",
  "America/Ciudad_Juarez"]

def TZ_NAMES : List Text := timeZoneNames.map String.toList

/-- `String(n).padStart(2, '0')` -/
def twoDigits (n : Nat) : Text :=
  let digits := Nat.toDigits 10 n
  List.replicate (2 - digits.length) '0' ++ digits

/-- Firebird time zone id to zone string. -/
def tzIdToZone (id : Nat) : Text :=
  if (id : Int) ≤ 2 * ONE_DAY_MINUTES then
    let disp := (id : Int) - ONE_DAY_MINUTES
    let abs := disp.natAbs
    (if disp < 0 then '-' else '+') :: (twoDigits (abs / 60) ++ ':' :: twoDigits (abs % 60))
  else
    match if (id : Int) ≤ TZ_MAX_ID then TZ_NAMES[(TZ_MAX_ID - id).toNat]? else none with
    | some name => name
    | none => "tz#".toList ++ Nat.toDigits 10 id

/-! ASCII text by its bytes: what a literal is made of is found without decoding it. -/

def asciiBytes (s : String) : List Nat := s.toByteArray.data.toList.map UInt8.toNat

/-- A character of more than one byte begins with a byte beyond ASCII. -/
theorem utf8EncodeChar_ascii {c : Char} (h : ∀ b ∈ String.utf8EncodeChar c, b.toNat < 128) :
    String.utf8EncodeChar c = [UInt8.ofNat c.toNat] ∧ c.toNat < 128 := by
  unfold String.utf8EncodeChar at h ⊢
  dsimp only at h ⊢
  have hval : c.val.toNat = c.toNat := rfl
  rw [hval] at h ⊢
  split at h
  · rename_i hle
    rw [if_pos hle]
    exact ⟨rfl, by omega⟩
  · exfalso
    split at h
    · have hfirst := h _ List.mem_cons_self
      rw [UInt8.toNat_ofNat_of_lt' (by simp only [UInt8.size]; omega)] at hfirst
      omega
    · split at h
      · have hfirst := h _ List.mem_cons_self
        rw [UInt8.toNat_ofNat_of_lt' (by simp only [UInt8.size]; omega)] at hfirst
        omega
      · have hfirst := h _ List.mem_cons_self
        rw [UInt8.toNat_ofNat_of_lt' (by simp only [UInt8.size]; omega)] at hfirst
        omega

theorem chars_of_bytes {cs : List Char}
    (h : ∀ b ∈ cs.flatMap String.utf8EncodeChar, b.toNat < 128) :
    cs = ((cs.flatMap String.utf8EncodeChar).map UInt8.toNat).map Char.ofNat := by
  induction cs with
  | nil => rfl
  | cons c cs ih =>
    rw [List.flatMap_cons] at h ⊢
    obtain ⟨hencode, hc⟩ := utf8EncodeChar_ascii fun b hb => h b (List.mem_append_left _ hb)
    have hbyte : (UInt8.ofNat c.toNat).toNat = c.toNat :=
      UInt8.toNat_ofNat_of_lt' (by simp only [UInt8.size]; omega)
    rw [List.map_append, List.map_append, ← ih fun b hb => h b (List.mem_append_right _ hb),
      hencode]
    simp [hbyte]

theorem toList_of_ascii {s : String} (h : ∀ b ∈ asciiBytes s, b < 128) :
    s.toList = (asciiBytes s).map Char.ofNat := by
  obtain ⟨cs, rfl⟩ := s.exists_eq_ofList
  have hbytes : asciiBytes (String.ofList cs) =
      (cs.flatMap String.utf8EncodeChar).map UInt8.toNat := by
    simp [asciiBytes, List.utf8Encode, List.data_toByteArray]
  rw [hbytes] at h ⊢
  rw [String.toList_ofList]
  apply chars_of_bytes
  intro b hb
  exact h b.toNat (List.mem_map_of_mem hb)

/-! The names of the table -/

def lowerByte (b : Nat) : Nat := if 65 ≤ b && b ≤ 90 then b + 32 else b

/-- Small numbers that tell the names of the table apart. -/
def nameHash (codes : List Nat) : Nat := codes.foldl (fun n b => n * 256 + b) 0 % 28663

def startsUpper : List Nat → Bool
  | b :: _ => 65 ≤ b && b ≤ 90
  | [] => false

/-- No number of the list is in the set `seen` of bits, or in the list twice. -/
def distinctBits : Nat → List Nat → Bool
  | _, [] => true
  | seen, n :: rest => !seen.testBit n && distinctBits (seen ||| 2 ^ n) rest

theorem distinctBits_sound {seen : Nat} {ns : List Nat} (h : distinctBits seen ns = true) :
    ns.Nodup ∧ ∀ n ∈ ns, seen.testBit n = false := by
  induction ns generalizing seen with
  | nil => simp
  | cons n rest ih =>
    simp only [distinctBits, Bool.and_eq_true, Bool.not_eq_true'] at h
    obtain ⟨hnodup, hrest⟩ := ih h.2
    have hapart : ∀ m ∈ rest, seen.testBit m = false ∧ n ≠ m := by
      intro m hm
      have hbit := hrest m hm
      rw [Nat.testBit_or, Nat.testBit_two_pow, Bool.or_eq_false_iff, decide_eq_false_iff_not]
        at hbit
      exact hbit
    constructor
    · rw [List.nodup_cons]
      refine ⟨fun hmem => ?_, hnodup⟩
      exact (hapart n hmem).2 rfl
    · intro m hm
      rcases List.mem_cons.mp hm with rfl | hm
      · exact h.1
      · exact (hapart m hm).1

/-- Both at once, so that the bytes of a name are found once. -/
theorem timeZoneNames_checked :
    ((timeZoneNames.all fun s => startsUpper (asciiBytes s) && (asciiBytes s).all (· < 128)) &&
      distinctBits 0 (timeZoneNames.map fun s => nameHash ((asciiBytes s).map lowerByte))) =
      true := by
  decide +kernel

theorem timeZoneNames_ascii {s : String} (hs : s ∈ timeZoneNames) :
    startsUpper (asciiBytes s) = true ∧ ∀ b ∈ asciiBytes s, b < 128 := by
  have hchecked := timeZoneNames_checked
  rw [Bool.and_eq_true, List.all_eq_true] at hchecked
  have hname := hchecked.1 s hs
  rw [Bool.and_eq_true, List.all_eq_true] at hname
  refine ⟨hname.1, fun b hb => ?_⟩
  exact of_decide_eq_true (hname.2 b hb)

theorem startsUpper_cons {codes : List Nat} (h : startsUpper codes = true) :
    ∃ b rest, codes = b :: rest ∧ 65 ≤ b ∧ b ≤ 90 := by
  cases codes with
  | nil => simp [startsUpper] at h
  | cons b rest =>
    simp only [startsUpper, Bool.and_eq_true, decide_eq_true_eq] at h
    exact ⟨b, rest, rfl, h.1, h.2⟩

theorem lowerByte_toLower {b : Nat} (hb : b < 128) :
    ((Char.ofNat b).toLower).toNat = lowerByte b ∧ (Char.ofNat b).toNat = b := by
  have hall : ∀ b < 128,
      ((Char.ofNat b).toLower).toNat = lowerByte b ∧ (Char.ofNat b).toNat = b := by
    decide +kernel
  exact hall b hb

/-- Every name of the table is of ASCII characters and begins with a capital letter. -/
theorem TZ_NAMES_ascii {name : Text} (h : name ∈ TZ_NAMES) :
    (∀ c ∈ name, c.toNat < 128) ∧ ∃ c rest, name = c :: rest ∧ 65 ≤ c.toNat ∧ c.toNat ≤ 90 := by
  obtain ⟨s, hs, rfl⟩ := List.mem_map.mp h
  obtain ⟨hupper, hascii⟩ := timeZoneNames_ascii hs
  rw [toList_of_ascii hascii]
  constructor
  · intro c hc
    obtain ⟨b, hb, rfl⟩ := List.mem_map.mp hc
    rw [(lowerByte_toLower (hascii b hb)).2]
    exact hascii b hb
  · obtain ⟨b, rest, hcodes, hlow, hhigh⟩ := startsUpper_cons hupper
    rw [hcodes]
    have hb := (lowerByte_toLower (b := b) (by omega)).2
    exact ⟨Char.ofNat b, rest.map Char.ofNat, rfl, by omega, by omega⟩

/-- The names are different even without their case. -/
theorem TZ_NAMES_nodup : (TZ_NAMES.map (·.map Char.toLower)).Nodup := by
  have hchecked := timeZoneNames_checked
  rw [Bool.and_eq_true] at hchecked
  have hhashes := (distinctBits_sound hchecked.2).1
  have hsame : timeZoneNames.map (fun s => nameHash ((asciiBytes s).map lowerByte)) =
      (TZ_NAMES.map (·.map Char.toLower)).map fun name => nameHash (name.map Char.toNat) := by
    rw [TZ_NAMES, List.map_map, List.map_map]
    apply List.map_congr_left
    intro s hs
    have hascii := (timeZoneNames_ascii hs).2
    simp only [Function.comp_apply]
    rw [toList_of_ascii hascii, List.map_map, List.map_map]
    apply congrArg
    apply List.map_congr_left
    intro b hb
    exact (lowerByte_toLower (hascii b hb)).1.symm
  rw [hsame] at hhashes
  exact List.Nodup.of_map _ hhashes

/-! The way back -/

theorem toLowerCase_of_ascii {cases : CaseMap} {name : Text} (h : ∀ c ∈ name, c.toNat < 128) :
    toLowerCase cases name = name.map Char.toLower := by
  induction name with
  | nil => rfl
  | cons c name ih =>
    have hc := cases.lower_ascii c (h c List.mem_cons_self)
    rw [toLowerCase, List.flatMap_cons, hc, List.map_cons]
    have hrest := ih fun d hd => h d (List.mem_cons_of_mem c hd)
    rw [toLowerCase] at hrest
    rw [hrest, List.singleton_append]

theorem offsetMinutes_none {c : Char} {rest : Text} (hplus : c ≠ '+') (hminus : c ≠ '-') :
    offsetMinutes (c :: rest) = none := by
  unfold offsetMinutes
  split <;> simp_all

theorem zoneMarker_none {c : Char} {rest : Text} (h : c ≠ 't') : zoneMarker (c :: rest) = none := by
  unfold zoneMarker
  split
  · simp_all
  · rfl

/-- The entry of a name that no other entry has. -/
theorem filter_zipIdx_eq {α β : Type} [DecidableEq β] (f : α → β) {xs : List α}
    (h : (xs.map f).Nodup) {i : Nat} {x : α} (hx : xs[i]? = some x) (k : Nat) :
    (xs.zipIdx k).filter (fun entry => f entry.1 = f x) = [(x, k + i)] := by
  induction xs generalizing i k with
  | nil => simp at hx
  | cons a xs ih =>
    rw [List.map_cons, List.nodup_cons] at h
    rw [List.zipIdx_cons]
    cases i with
    | zero =>
      rw [List.getElem?_cons_zero, Option.some_inj] at hx
      subst hx
      have hnone : (xs.zipIdx (k + 1)).filter (fun entry => f entry.1 = f a) = [] := by
        rw [List.filter_eq_nil_iff]
        rintro ⟨y, j⟩ hy
        have hmem := List.fst_mem_of_mem_zipIdx hy
        simp only [decide_eq_true_eq]
        intro heq
        apply h.1
        rw [← heq]
        exact List.mem_map_of_mem hmem
      rw [List.filter_cons_of_pos (by simp), hnone, Nat.add_zero]
    | succ i =>
      rw [List.getElem?_cons_succ] at hx
      have hne : f a ≠ f x := by
        intro heq
        apply h.1
        rw [heq]
        exact List.mem_map_of_mem (List.mem_of_getElem? hx)
      rw [List.filter_cons_of_neg (by simpa using hne), ih h.2 hx (k + 1)]
      congr 2
      omega

theorem twoDigits_spec {n : Nat} (h : n < 100) :
    ∃ a b, twoDigits n = [a, b] ∧ a.isDigit = true ∧ b.isDigit = true ∧
      decimalValue [a, b] = n := by
  have hall : ∀ n < 100, twoDigits n = [Char.ofNat (48 + n / 10), Char.ofNat (48 + n % 10)] ∧
      (Char.ofNat (48 + n / 10)).isDigit = true ∧ (Char.ofNat (48 + n % 10)).isDigit = true ∧
      decimalValue [Char.ofNat (48 + n / 10), Char.ofNat (48 + n % 10)] = n := by
    decide +kernel
  exact ⟨_, _, hall n h⟩

theorem offsetMinutes_zone {sign : Char} (hsign : sign = '+' ∨ sign = '-') {h m : Nat}
    (hh : h < 100) (hm : m < 100) :
    offsetMinutes (sign :: (twoDigits h ++ ':' :: twoDigits m)) =
      some ((if sign = '-' then -1 else 1) * ((h : Int) * 60 + m)) := by
  obtain ⟨a, b, hab, ha, hb, hh⟩ := twoDigits_spec hh
  obtain ⟨c, d, hcd, hc, hd, hm⟩ := twoDigits_spec hm
  have hdigits : ([a, b] ++ [c, d]).all Char.isDigit = true := by
    simp [ha, hb, hc, hd]
  have hshape : sign :: (twoDigits h ++ ':' :: twoDigits m) = [sign, a, b, ':', c, d] := by
    rw [hab, hcd]
    rfl
  have hread : offsetMinutes [sign, a, b, ':', c, d] =
      if (sign = '+' ∨ sign = '-') ∧ ([a, b] ++ [c, d]).all Char.isDigit = true then
        some ((if sign = '-' then -1 else 1) *
          ((decimalValue [a, b] : Int) * 60 + decimalValue [c, d]))
      else none := rfl
  rw [hshape, hread, if_pos ⟨hsign, hdigits⟩, hh, hm]

/-- The zone of an id is encoded as that id. -/
theorem zoneToTzId_tzIdToZone {host : EncodeHost} (hnames : host.tzNames = TZ_NAMES) {id : Nat}
    (hid : id < 65536) : zoneToTzId host (tzIdToZone id) = .ok (.int id) := by
  have hday : ONE_DAY_MINUTES = 1439 := rfl
  by_cases hoffset : (id : Int) ≤ 2 * ONE_DAY_MINUTES
  · have hmod : ((id : Int) - ONE_DAY_MINUTES).natAbs % 60 < 100 := by
      omega
    have hdiv : ((id : Int) - ONE_DAY_MINUTES).natAbs / 60 < 100 := by
      omega
    have hminutes : offsetMinutes (tzIdToZone id) = some ((id : Int) - ONE_DAY_MINUTES) := by
      unfold tzIdToZone
      rw [if_pos hoffset]
      dsimp only
      split
      · rw [offsetMinutes_zone (Or.inr rfl) hdiv hmod, if_pos rfl]
        congr 1
        omega
      · rw [offsetMinutes_zone (Or.inl rfl) hdiv hmod, if_neg (by decide)]
        congr 1
        omega
    unfold zoneToTzId
    rw [hminutes]
    dsimp only
    rw [if_neg (by omega), Int.sub_add_cancel]
  · have hzone : tzIdToZone id =
        match TZ_NAMES[65535 - id]? with
        | some name => name
        | none => "tz#".toList ++ Nat.toDigits 10 id := by
      have hindex : (TZ_MAX_ID - (id : Int)).toNat = 65535 - id := by
        simp only [TZ_MAX_ID]
        omega
      unfold tzIdToZone
      rw [if_neg hoffset, if_pos (by simp only [TZ_MAX_ID]; omega), hindex]
    cases hname : TZ_NAMES[65535 - id]? with
    | none =>
      have hmarker : tzIdToZone id = 't' :: 'z' :: '#' :: Nat.toDigits 10 id := by
        rw [hzone, hname]
        rfl
      have hdigits : (Nat.toDigits 10 id).all Char.isDigit = true := by
        rw [List.all_eq_true]
        exact allDigits_toDigits id
      have hread : zoneMarker ('t' :: 'z' :: '#' :: Nat.toDigits 10 id) = some (.int id) := by
        show (if _ then _ else _) = _
        rw [if_pos ⟨Nat.toDigits_ne_nil, hdigits⟩, decimalValue_toDigits,
          Number.ofInt_exact (by omega)]
      rw [hmarker]
      unfold zoneToTzId
      rw [offsetMinutes_none (by decide) (by decide), hread]
    | some name =>
      obtain ⟨hascii, c, rest, hcons, hlow, hhigh⟩ :=
        TZ_NAMES_ascii (List.mem_of_getElem? hname)
      have hne (d : Char) (hd : d.toNat < 65 ∨ 90 < d.toNat) : c ≠ d := by
        rintro rfl
        omega
      have hlower : (TZ_NAMES.map (toLowerCase host.cases)).Nodup := by
        have hmap : TZ_NAMES.map (toLowerCase host.cases) = TZ_NAMES.map (·.map Char.toLower) := by
          apply List.map_congr_left
          intro text htext
          exact toLowerCase_of_ascii (TZ_NAMES_ascii htext).1
        rw [hmap]
        exact TZ_NAMES_nodup
      have hnamed : namedZone host name = some (id : Int) := by
        unfold namedZone
        rw [hnames, filter_zipIdx_eq (toLowerCase host.cases) hlower hname 0]
        simp only [List.getLast?_singleton, Option.map_some, TZ_MAX_ID]
        congr 1
        omega
      have hself : tzIdToZone id = name := by
        rw [hzone, hname]
      rw [hself]
      unfold zoneToTzId
      rw [hnamed, hcons,
        offsetMinutes_none (hne '+' (by decide)) (hne '-' (by decide)),
        zoneMarker_none (hne 't' (by decide))]

end FastFirebird.Msgcodec
