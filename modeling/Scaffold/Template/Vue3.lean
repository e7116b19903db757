import Scaffold.Template.File

/-! # The files of the single-page application

Every file of the template with its lines.
-/

namespace Scaffold.Template

/-- The files of the template. -/
def vue3Files : List File := [
  ⟨"README.md", [
    "# vue3-template",
    "",
    "Vue 3 + Vite starter.",
    "",
    "## Scripts",
    "",
    "\x60\x60\x60sh",
    "npm install",
    "npm run dev",
    "npm run build",
    "\x60\x60\x60"]⟩,
  ⟨"components.d.ts", [
    "/* eslint-disable */",
    "// Generated by unplugin-vue-components",
    "export \x7b\x7d",
    "",
    "declare module 'vue' \x7b",
    "  export interface GlobalComponents \x7b",
    "    HelloWorld: typeof import('./src/components/HelloWorld.vue')['default']",
    "    RouterLink: typeof import('vue-router')['RouterLink']",
    "    RouterView: typeof import('vue-router')['RouterView']",
    "  \x7d",
    "\x7d"]⟩,
  ⟨"env.d.ts", [
    "/// <reference types=\"vite/client\" />"]⟩,
  ⟨"index.html", [
    "<!DOCTYPE html>",
    "<html lang=\"en\">",
    "  <head>",
    "    <meta charset=\"UTF-8\">",
    "    <link rel=\"icon\" href=\"/favicon.svg\">",
    "    <meta name=\"viewport\" content=\"width=device-width, initial-scale=1.0\">",
    "    <title>vue3-template</title>",
    "  </head>",
    "  <body>",
    "    <div id=\"app\"></div>",
    "    <script type=\"module\" src=\"/src/main.ts\"></script>",
    "  </body>",
    "</html>"]⟩,
  ⟨"package.json", [
    "\x7b",
    "  \"name\": \"vue3-template\",",
    "  \"version\": \"0.0.0\",",
    "  \"private\": true,",
    "  \"type\": \"module\",",
    "  \"scripts\": \x7b",
    "    \"dev\": \"vite\",",
    "    \"build\": \"vue-tsc -b && vite build\",",
    "    \"preview\": \"vite preview\",",
    "    \"test:unit\": \"vitest --config vitest.config.ts\",",
    "    \"type-check\": \"vue-tsc --build --force\"",
    "  \x7d,",
    "  \"dependencies\": \x7b",
    "    \"pinia\": \"^2.1.7\",",
    "    \"vue\": \"^3.4.29\",",
    "    \"vue-router\": \"^4.3.3\"",
    "  \x7d,",
    "  \"devDependencies\": \x7b",
    "    \"@types/jsdom\": \"^21.1.7\",",
    "    \"@types/node\": \"^20.14.5\",",
    "    \"@unocss/reset\": \"^0.61.0\",",
    "    \"@vitejs/plugin-vue\": \"^5.0.5\",",
    "    \"@vitejs/plugin-vue-jsx\": \"^4.0.0\",",
    "    \"@vue/test-utils\": \"^2.4.6\",",
    "    \"@vue/tsconfig\": \"^0.5.1\",",
    "    \"jsdom\": \"^24.1.0\",",
    "    \"typescript\": \"~5.4.0\",",
    "    \"unocss\": \"^0.61.0\",",
    "    \"unplugin-auto-import\": \"^0.17.6\",",
    "    \"unplugin-vue-components\": \"^0.27.0\",",
    "    \"vite\": \"^5.3.1\",",
    "    \"vitest\": \"^1.6.0\",",
    "    \"vue-tsc\": \"^2.0.21\"",
    "  \x7d",
    "\x7d"]⟩,
  ⟨"public/favicon.svg", [
    "<svg xmlns=\"http://www.w3.org/2000/svg\" viewBox=\"0 0 32 32\"><path fill=\"#42b883\" d=\"M2 4h6l8 14 8-14h6L16 28z\"/><path fill=\"#35495e\" d=\"M8 4h5l3 5 3-5h5l-8 14z\"/></svg>"]⟩,
  ⟨"src/App.vue", [
    "<script setup lang=\"ts\">",
    "import HelloWorld from './components/HelloWorld.vue'",
    "</script>",
    "",
    "<template>",
    "  <header class=\"flex-center p-4\">",
    "    <HelloWorld msg=\"Welcome to your Vue 3 app\" />",
    "  </header>",
    "",
    "  <main>",
    "    <RouterView v-if=\"$router\" />",
    "  </main>",
    "</template>"]⟩,
  ⟨"src/assets/main.css", [
    ":root \x7b",
    "  --color-text: #213547;",
    "  --color-background: #ffffff;",
    "\x7d",
    "",
    "body \x7b",
    "  margin: 0;",
    "  min-height: 100vh;",
    "  color: var(--color-text);",
    "  background: var(--color-background);",
    "  font-family: Inter, -apple-system, BlinkMacSystemFont, 'Segoe UI', Roboto, sans-serif;",
    "\x7d"]⟩,
  ⟨"src/auto-import.d.ts", [
    "/* eslint-disable */",
    "// Generated by unplugin-auto-import",
    "export \x7b\x7d",
    "declare global \x7b",
    "  const computed: typeof import('vue')['computed']",
    "  const defineStore: typeof import('pinia')['defineStore']",
    "  const ref: typeof import('vue')['ref']",
    "  const useRoute: typeof import('vue-router')['useRoute']",
    "  const useRouter: typeof import('vue-router')['useRouter']",
    "\x7d"]⟩,
  ⟨"src/components/HelloWorld.vue", [
    "<script setup lang=\"ts\">",
    "defineProps<\x7b",
    "  msg: string",
    "\x7d>()",
    "</script>",
    "",
    "<template>",
    "  <h1 class=\"text-2xl font-bold\">\x7b\x7b msg \x7d\x7d</h1>",
    "</template>"]⟩,
  ⟨"src/main.ts", [
    "import 'uno.css'",
    "import '@unocss/reset/tailwind.css'",
    "import './assets/main.css'",
    "",
    "import \x7b createApp \x7d from 'vue'",
    "import \x7b createPinia \x7d from 'pinia'",
    "",
    "import App from './App.vue'",
    "import router from './router'",
    "",
    "const app = createApp(App)",
    "",
    "app.use(createPinia())",
    "app.use(router)",
    "",
    "app.mount('#app')"]⟩,
  ⟨"src/router/index.ts", [
    "import \x7b createRouter, createWebHistory \x7d from 'vue-router'",
    "import type \x7b RouteRecordRaw \x7d from 'vue-router'",
    "",
    "const routes: RouteRecordRaw[] = [",
    "  \x7b",
    "    path: '/',",
    "    name: 'example',",
    "    component: () => import('../views/example/index.vue')",
    "  \x7d",
    "]",
    "",
    "const router = createRouter(\x7b",
    "  history: createWebHistory(import.meta.env.BASE_URL),",
    "  routes",
    "\x7d)",
    "",
    "export default router"]⟩,
  ⟨"src/stores/counter.ts", [
    "import \x7b ref, computed \x7d from 'vue'",
    "import \x7b defineStore \x7d from 'pinia'",
    "",
    "export const useCounterStore = defineStore('counter', () => \x7b",
    "  const count = ref<number>(0)",
    "  const doubleCount = computed((): number => count.value * 2)",
    "",
    "  function increment(step: number = 1): void \x7b",
    "    count.value += step",
    "  \x7d",
    "",
    "  return \x7b count, doubleCount, increment \x7d",
    "\x7d)"]⟩,
  ⟨"src/utils/format.ts", [
    "export interface FormatOptions \x7b",
    "  locale?: string",
    "  currency?: string",
    "\x7d",
    "",
    "export enum Precision \x7b",
    "  None,",
    "  Cents = 2,",
    "  Mills",
    "\x7d",
    "",
    "export function formatPrice(value: number, options: FormatOptions = \x7b\x7d): string \x7b",
    "  const \x7b locale = 'en-US', currency = 'USD' \x7d = options",
    "  return new Intl.NumberFormat(locale, \x7b",
    "    style: 'currency',",
    "    currency,",
    "    maximumFractionDigits: Precision.Cents",
    "  \x7d).format(value)",
    "\x7d"]⟩,
  ⟨"src/views/example/index.vue", [
    "<script setup lang=\"ts\">",
    "import \x7b ref \x7d from 'vue'",
    "",
    "const count = ref<number>(0)",
    "</script>",
    "",
    "<template>",
    "  <section class=\"flex-col-center gap-2 p-8\">",
    "    <p>Example page</p>",
    "    <button type=\"button\" @click=\"count++\">count is \x7b\x7b count \x7d\x7d</button>",
    "  </section>",
    "</template>"]⟩,
  ⟨"tsconfig.app.json", [
    "\x7b",
    "  \"extends\": \"@vue/tsconfig/tsconfig.dom.json\",",
    "  \"include\": [\"env.d.ts\", \"components.d.ts\", \"src/**/*\", \"src/**/*.vue\"],",
    "  \"exclude\": [\"src/**/__tests__/*\"],",
    "  \"compilerOptions\": \x7b",
    "    \"composite\": true,",
    "    \"tsBuildInfoFile\": \"./node_modules/.tmp/tsconfig.app.tsbuildinfo\",",
    "    \"baseUrl\": \".\",",
    "    \"paths\": \x7b",
    "      \"@/*\": [\"./src/*\"]",
    "    \x7d",
    "  \x7d",
    "\x7d"]⟩,
  ⟨"tsconfig.json", [
    "\x7b",
    "  \"files\": [],",
    "  \"references\": [",
    "    \x7b \"path\": \"./tsconfig.node.json\" \x7d,",
    "    \x7b \"path\": \"./tsconfig.app.json\" \x7d,",
    "    \x7b \"path\": \"./tsconfig.vitest.json\" \x7d",
    "  ]",
    "\x7d"]⟩,
  ⟨"tsconfig.node.json", [
    "\x7b",
    "  \"include\": [\"vite.config.*\", \"vitest.config.*\", \"uno.config.*\"],",
    "  \"compilerOptions\": \x7b",
    "    \"composite\": true,",
    "    \"noEmit\": true,",
    "    \"tsBuildInfoFile\": \"./node_modules/.tmp/tsconfig.node.tsbuildinfo\",",
    "    \"module\": \"ESNext\",",
    "    \"moduleResolution\": \"Bundler\",",
    "    \"types\": [\"node\"]",
    "  \x7d",
    "\x7d"]⟩,
  ⟨"tsconfig.vitest.json", [
    "\x7b",
    "  \"extends\": \"./tsconfig.app.json\",",
    "  \"exclude\": [],",
    "  \"compilerOptions\": \x7b",
    "    \"composite\": true,",
    "    \"tsBuildInfoFile\": \"./node_modules/.tmp/tsconfig.vitest.tsbuildinfo\",",
    "    \"lib\": [],",
    "    \"types\": [\"node\", \"jsdom\"]",
    "  \x7d",
    "\x7d"]⟩,
  ⟨"uno.config.ts", [
    "import \x7b defineConfig, presetAttributify, presetIcons, presetUno, transformerDirectives \x7d from 'unocss'",
    "",
    "export default defineConfig(\x7b",
    "  rules: [",
    "    [/^radius-(\\d+)$/, ([, d]) => (\x7b 'border-radius': \x60$\x7bd\x7dpx\x60 \x7d)],",
    "    [",
    "      /^custom-border(?:-(.+))?-(\\d+px)-(\\w+)-(.+)$/,",
    "      ([, direction, width, style, color]) => \x7b",
    "        const borderValue = \x60$\x7bwidth\x7d $\x7bstyle\x7d $\x7bcolor\x7d\x60",
    "",
    "        if (!direction) \x7b",
    "          return \x7b border: borderValue \x7d",
    "        \x7d",
    "",
    "        const result: Record<string, string> = \x7b\x7d",
    "        direction.split('-').forEach((side: string) => \x7b",
    "          if (['top', 'right', 'bottom', 'left'].includes(side)) \x7b",
    "            result[\x60border-$\x7bside\x7d\x60] = borderValue",
    "          \x7d",
    "        \x7d)",
    "        return result",
    "      \x7d",
    "    ]",
    "  ],",
    "  shortcuts: [",
    "    ['flex-center', 'flex items-center justify-center'],",
    "    ['flex-col-center', 'flex flex-col items-center justify-center']",
    "  ],",
    "  presets: [presetUno(), presetAttributify(), presetIcons()],",
    "  transformers: [transformerDirectives()]",
    "\x7d)"]⟩,
  ⟨"vite.config.ts", [
    "import \x7b fileURLToPath, URL \x7d from 'node:url'",
    "",
    "import \x7b defineConfig \x7d from 'vite'",
    "import vue from '@vitejs/plugin-vue'",
    "import vueJsx from '@vitejs/plugin-vue-jsx'",
    "import UnoCSS from 'unocss/vite'",
    "import AutoImport from 'unplugin-auto-import/vite'",
    "import Components from 'unplugin-vue-components/vite'",
    "",
    "// https://vitejs.dev/config/",
    "export default defineConfig(\x7b",
    "  plugins: [",
    "    vue(),",
    "    vueJsx(),",
    "    UnoCSS(),",
    "    AutoImport(\x7b",
    "      imports: ['vue', 'vue-router', 'pinia'],",
    "      dts: 'src/auto-import.d.ts'",
    "    \x7d),",
    "    Components(\x7b",
    "      dirs: ['src/components'],",
    "      dts: 'components.d.ts'",
    "    \x7d)",
    "  ],",
    "  resolve: \x7b",
    "    alias: \x7b",
    "      '@': fileURLToPath(new URL('./src', import.meta.url))",
    "    \x7d",
    "  \x7d",
    "\x7d)"]⟩,
  ⟨"vitest.config.ts", [
    "import \x7b fileURLToPath \x7d from 'node:url'",
    "import \x7b mergeConfig, defineConfig, configDefaults \x7d from 'vitest/config'",
    "import viteConfig from './vite.config'",
    "",
    "export default mergeConfig(",
    "  viteConfig,",
    "  defineConfig(\x7b",
    "    test: \x7b",
    "      environment: 'jsdom',",
    "      exclude: [...configDefaults.exclude, 'e2e/**'],",
    "      root: fileURLToPath(new URL('./', import.meta.url))",
    "    \x7d",
    "  \x7d)",
    ")"]⟩]

end Scaffold.Template
