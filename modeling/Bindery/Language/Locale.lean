import Bindery.Text.Basic

/-!
# Locales

The locale and the native name of languages, by their identifiers. Identifiers are compared without
case, and an underscore counts as a hyphen.
-/

namespace Bindery.Language

open Text

/-- A language with its locale and its name in the language itself. -/
structure Locale where
  id : Bytes
  locale : Bytes
  native : Bytes
  deriving DecidableEq, Repr

private def locale (id locale native : String) : Locale :=
  { id := bytes id, locale := bytes locale, native := bytes native }

/-- The known languages, with identifiers in lower case. -/
def locales : List Locale :=
  [locale "en" "en_US" "English", locale "de" "de_DE" "Deutsch", locale "fr" "fr_FR" "français",
    locale "es" "es_ES" "español", locale "it" "it_IT" "italiano", locale "zh" "zh_CN" "中文",
    locale "ja" "ja_JP" "日本語", locale "ru" "ru_RU" "русский", locale "pt" "pt_BR" "português",
    locale "pt-br" "pt_BR" "português", locale "en-gb" "en_GB" "British English",
    locale "en-us" "en_US" "American English", locale "de-at" "de_AT" "Österreichisches Deutsch",
    locale "de-ch" "de_CH" "Schweizer Hochdeutsch", locale "nl" "nl_NL" "Nederlands",
    locale "sv" "sv_SE" "svenska", locale "pl" "pl_PL" "polski", locale "tr" "tr_TR" "Türkçe",
    locale "ko" "ko_KR" "한국어", locale "ar" "ar_EG" "العربية", locale "cs" "cs_CZ" "čeština",
    locale "da" "da_DK" "dansk", locale "fi" "fi_FI" "suomi", locale "el" "el_GR" "Ελληνικά",
    locale "hu" "hu_HU" "magyar", locale "nb" "nb_NO" "norsk bokmål",
    locale "uk" "uk_UA" "українська", locale "zh-tw" "zh_TW" "繁體中文",
    locale "zh-hant" "zh_TW" "繁體中文", locale "zh-hans" "zh_CN" "简体中文",
    locale "fr-ca" "fr_CA" "français canadien", locale "es-mx" "es_MX" "español de México",
    locale "und" "en_US" "und", locale "no" "no_NO" "norsk bokmål"]

/-- An identifier in the form in which identifiers are compared. -/
def canonicalId (id : Bytes) : Bytes := id.map fun c : UInt8 => if c = '_' then 45 else lowerByte c

def locale? (id : Bytes) : Option Locale := locales.find? fun l => l.id == canonicalId id

/-- The locale of an identifier; an unknown one is its own locale. -/
def localeOf (id : Bytes) : Bytes := ((locale? id).map Locale.locale).getD id

/-- The native name of an identifier; an unknown one is its own name. -/
def nativeName (id : Bytes) : Bytes := ((locale? id).map Locale.native).getD id

end Bindery.Language
